import Deduction.Text.Quoted

/-!
# Payloads

The host values that a value term carries, and how one payload compares itself
with another. The comparison asks the left payload and may fail: an unstable
payload compares with nothing but itself, and a caseless text refuses an empty
one. Payloads that are compared by identity carry the label of their object.
-/

namespace Deduction

/-- A host value. Equal payloads are the same object or have the same plain content. -/
inductive Payload where
  | int (value : Int64)
  | byte (value : UInt8)
  | bool (value : Bool)
  | text (value : String)
  | ints (values : List Int64)
  | nan (object : String)
  | unstable (object : String)
  | caseless (object : Nat) (value : String)
  deriving DecidableEq, Repr

/-- Why two payloads could not be compared. -/
inductive PayloadFault where
  | unstable
  | emptyText
  deriving DecidableEq, Repr

/-- The wording of a failed comparison. -/
def PayloadFault.message : PayloadFault → String
  | unstable => "unstable payload"
  | emptyText => "empty text"

/-- The verdict of a comparison that may fail. -/
abbrev Comparison := Except PayloadFault Bool

/-- How two payloads compare. A judge may fail on them, or find one equal to the other but not the
other way round. -/
abbrev Judge := Payload → Payload → Comparison

/-- Whether the comparison succeeded and found its two sides equal. -/
def Comparison.holds : Comparison → Bool
  | .ok verdict => verdict
  | .error _ => false

namespace Payload

/-- Equality of a text with a nonempty one, up to the case of ASCII letters. -/
def compareCaseless (own other : String) : Comparison :=
  if other.isEmpty then .error .emptyText
  else .ok (own.map Char.toLower == other.map Char.toLower)

/-- The left payload compares itself with the right one. The same object agrees at once. -/
def agrees (p q : Payload) : Comparison :=
  if p = q then .ok true
  else match p, q with
    | .unstable _, _ => .error .unstable
    | .caseless _ s, .text t | .caseless _ s, .caseless _ t => compareCaseless s t
    | _, _ => .ok false

@[simp] theorem agrees_self (p : Payload) : p.agrees p = .ok true := by simp [agrees]

/-- A payload's content, as a diagnostic shows it. -/
def render : Payload → String
  | int n => toString n.toInt
  | byte n => toString n.toNat
  | bool b => if b then "true" else "false"
  | text s => Text.quoted s
  | ints ns => "[" ++ ", ".intercalate (ns.map fun n => toString n.toInt) ++ "]"
  | nan _ => "NaN"
  | unstable _ => "Unstable"
  | caseless _ s => "Ci(" ++ Text.quoted s ++ ")"

/-- The content between the words that mark it as a value. -/
def renderTagged (p : Payload) : String := "Value(" ++ p.render ++ ")"

end Payload

end Deduction
