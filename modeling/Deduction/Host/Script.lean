import Deduction.Env.Learning
import Deduction.Env.Scoping
import Deduction.Host.Integer

/-!
# Scripts for host goals

A small language for what a host goal does in one turn. Every action takes an
environment to another one, fails, or gives up with a fault, and it only uses the
operations that environments offer to everyone.
-/

namespace Deduction

/-- One step of a host goal. -/
inductive Action where
  /-- Changes nothing. -/
  | succeed
  /-- Does not hold. -/
  | fail
  /-- Gives up for the given reason. -/
  | giveUp (reason : String)
  /-- Learns a declared variable's constant. -/
  | resolve (name : Variable) (value : Constant)
  /-- Binds a rule's own variable to a term. -/
  | assign (own : Variable) (value : Term)
  /-- Learns that two declared variables stand for the same. -/
  | link (first second : Variable)
  /-- Binds a rule's own variable to a new temporary. -/
  | assignFresh (own : Variable)
  /-- Holds when a declared variable's constant is known. -/
  | isResolved (name : Variable)
  /-- Holds when the constant of a rule's own variable is known. -/
  | isBound (own : Variable)
  /-- Holds when the first operand is less than the second. -/
  | less (left right : Variable)
  /-- Computes an operation and binds a rule's own variable, if one is given, to it. -/
  | compute (op : Operation) (left right : Variable) (result : Option Variable)
  deriving DecidableEq, Repr

/-- Actions and notes in sequence. -/
inductive Script where
  | action (step : Action)
  /-- Writes a note. -/
  | log (text : String)
  /-- The second script in the environment that the first one gives. -/
  | andThen (first second : Script)
  deriving DecidableEq, Repr

namespace Action

/-- Ends as an attempt to learn something ends. -/
def learn (k : Env) (attempt : Except Fault Outcome) : Except Fault (Option Env) :=
  attempt.map fun outcome => outcome.after k

/-- Goes on unchanged, but only when a constant is known. -/
def require (k : Env) (value : Except Fault (Option Constant)) : Except Fault (Option Env) :=
  value.map fun c => c.map fun _ => k

/-- Names the temporaries that actions issue. -/
def freshStem : String := "fresh"

/-- Both operands, the left one first. -/
def operands (host : String) (k : Env) (left right : Variable) : Except Fault (Int64 × Int64) :=
  match k.operand host left with
  | .error f => .error f
  | .ok a => (k.operand host right).map fun b => (a, b)

/-- What an action of the named host goal makes of an environment. -/
def run (host : String) (k : Env) : Action → Except Fault (Option Env)
  | succeed => .ok (some k)
  | fail => .ok none
  | giveUp reason => .error (.host host reason)
  | resolve v c => learn k (k.resolve v c)
  | assign l t => learn k (k.assign l t)
  | link v w => learn k (k.link v w)
  | assignFresh l =>
    let (t, k') := k.issueTemporary freshStem
    learn k' (k'.assign l (.var t))
  | isResolved v => require k (k.valueOf v)
  | isBound l => require k (k.lookup l)
  | less left right =>
    (operands host k left right).map fun (a, b) => if a < b then some k else none
  | compute op left right result =>
    match operands host k left right with
    | .error f => .error f
    | .ok (a, b) =>
      match op.checked a b, result with
      | none, _ => .error (.host host "overflow")
      | some _, none => .ok (some k)
      | some n, some l => learn k (k.assign l (Term.int n))

end Action

namespace Script

/-- Runs a script as one turn of the named host goal. It ends with the first action that
fails or gives up; what was noted until then stays. -/
def run (host : String) : Script → Env → Turn
  | action a, k => ⟨[], a.run host k⟩
  | log text, k => ⟨[text], .ok (some k)⟩
  | andThen p q, k =>
    let before := p.run host k
    match before.outcome with
    | .ok (some k') =>
      let after := q.run host k'
      ⟨before.notes ++ after.notes, after.outcome⟩
    | .ok none | .error _ => before

/-- The listed scripts, one after the other. -/
def sequence (scripts : List Script) : Script := scripts.foldr andThen (action .succeed)

end Script

namespace Host

/-- A host goal that runs a script as soon as it is started. -/
def script (name : String) (object : Nat) (s : Script) : Host :=
  once name object (s.run name)

/-- A host goal that runs one of the listed scripts in every turn. -/
def scripts (name : String) (object : Nat) (ss : List Script) : Host :=
  many name object (ss.map fun s => s.run name)

end Host

end Deduction
