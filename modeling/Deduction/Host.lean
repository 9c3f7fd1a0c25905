import Deduction.Env.Basic
import Deduction.Search

/-!
# Host goals

A host goal is answered outside the rules. Asked with an environment it gives its
answers turn by turn: each turn may write notes and ends in an environment, in
nothing, or in a fault. A host goal may never run out of turns.
-/

namespace Deduction

/-- One result of a search for solutions. -/
abbrev Item := Except Fault Env

/-- What a host does in one turn: notes to write down, and then an environment,
nothing, or a fault. -/
structure Turn where
  notes : List String
  outcome : Except Fault (Option Env)
  deriving Repr

/-- A goal answered by the host. Two of them are the same goal when name and object
number agree. `opening` is noted as soon as the goal is started, before any turn. -/
structure Host where
  name : String
  object : Nat
  opening : Env → List String
  turn : Env → Nat → Option Turn

namespace Host

/-- A goal with at most one answer, decided as soon as the goal is started. -/
def once (name : String) (object : Nat) (decide : Env → Turn) : Host where
  name
  object
  opening k := (decide k).notes
  turn k
    | 0 => some ⟨[], (decide k).outcome⟩
    | _ + 1 => none

/-- A goal with one turn for every listed decision, taken when it is pulled that far. -/
def many (name : String) (object : Nat) (turns : List (Env → Turn)) : Host where
  name
  object
  opening _ := []
  turn k n := turns[n]?.map fun decide => decide k

/-- The same name and the same object. -/
def same (h g : Host) : Bool := h.name == g.name && h.object == g.object

/-- The name between the words that mark it as a host goal. -/
def renderTagged (h : Host) : String :=
  "Custom \x7b name: " ++ Text.quoted h.name ++ ", .. \x7d"

/-- The answers of the turns from the `n`-th on, cut off after `bound` turns. -/
def turnsFrom (turn : Nat → Option Turn) : (bound n : Nat) → Search Item
  | 0, _ => .cut
  | bound + 1, n =>
    match turn n with
    | none => .done
    | some t => .noted t.notes fun _ =>
      match t.outcome with
      | .ok none => turnsFrom turn bound (n + 1)
      | .ok (some k) => .item (.ok k) fun _ => turnsFrom turn bound (n + 1)
      | .error f => .item (.error f) fun _ => turnsFrom turn bound (n + 1)

/-- The answers of a host goal, cut off after `bound` turns. -/
def answers (h : Host) (bound : Nat) (k : Env) : Search Item := turnsFrom (h.turn k) bound 0

end Host

end Deduction
