import Deduction.Goal
import Deduction.Matching

/-!
# Rules

A rule says that its condition holds where its body holds; a fact is a rule whose
body is the truth. A program is a list of rules, scanned from first to last for
those whose condition matches a goal.
-/

namespace Deduction

/-- A condition and the goal it follows from. -/
structure Rule where
  condition : Pattern
  body : Goal

/-- A rule whose condition matched, with the environment of the match. -/
structure Match where
  rule : Rule
  env : Env

/-- Rules in the order in which they are tried. -/
abbrev Program := List Rule

/-- Gives the matches of a goal, in order, with the faults met on the way. -/
abbrev Selector := Pattern → Env → List (Except Fault Match)

namespace Rule

/-- A rule that holds without further conditions. -/
def fact (condition : Pattern) : Rule := ⟨condition, .truth⟩

/-- Facts are the rules whose body is the truth. -/
def isFact (r : Rule) : Bool := r.body.isTruth

/-- Matches the rule's condition against a goal. -/
def matchGoal (r : Rule) (goal : Pattern) (k : Env) : Except Fault (Option Match) :=
  match Pattern.matchGoal r.condition goal k with
  | .error f => .error f
  | .ok none => .ok none
  | .ok (some k') => .ok (some ⟨r, k'⟩)

/-- Equality of rules in which a failing payload comparison counts as unequal. -/
def same (r r' : Rule) : Bool := Pattern.same r.condition r'.condition && r.body.same r'.body

/-- A rule as it is written; a fact ends in a full stop. -/
def render (r : Rule) : String :=
  if r.isFact then Pattern.render r.condition ++ "."
  else Pattern.render r.condition ++ " :- " ++ r.body.render

end Rule

namespace Program

/-- Tries the rules from first to last and stops at the first fault. -/
def select : Program → Selector
  | [], _, _ => []
  | r :: rs, goal, k =>
    match r.matchGoal goal k with
    | .error f => [.error f]
    | .ok none => select rs goal k
    | .ok (some m) => .ok m :: select rs goal k

/-- Tries every rule, also after a fault. -/
def selectLenient : Program → Selector
  | [], _, _ => []
  | r :: rs, goal, k =>
    match r.matchGoal goal k with
    | .error f => .error f :: selectLenient rs goal k
    | .ok none => selectLenient rs goal k
    | .ok (some m) => .ok m :: selectLenient rs goal k

/-- Rule by rule the same programs. -/
def same : Program → Program → Bool
  | [], [] => true
  | r :: rs, r' :: rs' => r.same r' && same rs rs'
  | [], _ :: _ | _ :: _, [] => false

/-- The rules as they are written, a line for each. -/
def render (rs : Program) : String := String.join (rs.map fun r => r.render ++ "\n")

end Program

end Deduction
