import Deduction.Env.Learning
import Deduction.Env.Scoping

/-!
# Matching

A rule's condition is matched against a goal. Variables of the condition are the
rule's own and get bound; variables of the goal are declared and get resolved.
Whole patterns match position by position, from left to right, in a fresh scope.
As for learning, payloads compare themselves unless another judge is given.
-/

namespace Deduction

/-- Matches a term of a condition against the goal's term in the same position. -/
def Term.matchGoal (k : Env) (s t : Term) (judge : Judge := Payload.agrees) :
    Except Fault Outcome :=
  match s, t with
  | .hole, .keyword _ | .keyword _, .hole => .ok .clash
  | .hole, _ | _, .hole => .ok .known
  | .keyword a, .keyword b => .ok (if a = b then .known else .clash)
  | .keyword _, .const _ | .keyword _, .var _ | .const _, .keyword _ => .ok .clash
  | .const c, .const d => Outcome.ofComparison (c.agrees d judge)
  | .const c, .var v => k.resolve v c judge
  | .var l, t => k.assign l t judge

namespace Pattern

/-- Matches terms pairwise until a pair clashes. -/
def matchTerms (condition goal : Pattern) (k : Env) (judge : Judge := Payload.agrees) :
    Except Fault (Option Env) :=
  match condition, goal with
  | s :: ss, t :: ts =>
    match s.matchGoal k t judge with
    | .error f => .error f
    | .ok outcome =>
      match outcome.after k with
      | none => .ok none
      | some k' => matchTerms ss ts k' judge
  | _, _ => .ok (some k)

/-- Matches a condition against a goal of the same length in a fresh scope. -/
def matchGoal (condition goal : Pattern) (k : Env) (judge : Judge := Payload.agrees) :
    Except Fault (Option Env) :=
  if condition.length = goal.length then matchTerms condition goal k.startMatching judge
  else .ok none

end Pattern

end Deduction
