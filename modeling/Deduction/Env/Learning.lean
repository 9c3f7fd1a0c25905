import Deduction.Env.Basic

/-!
# Learning

The operations that add an equation to an environment: a variable stands for a
constant, two variables stand for the same thing, or a rule's own variable is
bound to a term. Each of them finds that the equation is new, that it holds
already, or that it contradicts what is known. How payloads compare is left to a
judge, who is the payloads' own comparison unless another one is given.
-/

namespace Deduction

/-- What an attempt to learn an equation leads to. -/
inductive Outcome where
  /-- The equation contradicts what is known. -/
  | clash
  /-- The equation holds already. -/
  | known
  /-- The equation is new. -/
  | learned (env : Env)
  deriving DecidableEq, Repr

namespace Outcome

/-- Two constants that must be equal: a comparison teaches nothing new. -/
def ofComparison : Comparison → Except Fault Outcome
  | .error cause => .error (.payload cause)
  | .ok true => .ok known
  | .ok false => .ok clash

/-- The environment after an attempt that started from the given one. -/
def after (k : Env) : Outcome → Option Env
  | clash => none
  | known => some k
  | learned k' => some k'

end Outcome

namespace Env

/-- Learns that a declared variable stands for a constant. -/
def resolve (k : Env) (v : Variable) (c : Constant) (judge : Judge := Payload.agrees) :
    Except Fault Outcome :=
  match k.root v with
  | .error f => .error f
  | .ok ⟨last, none⟩ => .ok (.learned (k.setStatus last (.resolved c)))
  | .ok ⟨_, some d⟩ => Outcome.ofComparison (d.agrees c judge)

/-- Learns that two declared variables stand for the same. The root of the first is
linked to the root of the second, unless only the first has a constant to hand on. -/
def link (k : Env) (v w : Variable) (judge : Judge := Payload.agrees) : Except Fault Outcome :=
  match k.root v with
  | .error f => .error f
  | .ok rv =>
    match k.root w with
    | .error f => .error f
    | .ok rw =>
      if rv.last = rw.last then .ok .known
      else match rv.value, rw.value with
        | some c, some d => Outcome.ofComparison (c.agrees d judge)
        | some c, none => .ok (.learned (k.setStatus rw.last (.resolved c)))
        | none, _ => .ok (.learned (k.setStatus rv.last (.linked rw.last)))

/-- Learns that two referents stand for the same. -/
def equate (k : Env) (p r : Referent) (judge : Judge := Payload.agrees) : Except Fault Outcome :=
  match p, r with
  | .var v, .var w => k.link v w judge
  | .var v, .const c | .const c, .var v => k.resolve v c judge
  | .const _, .const _ => .ok .clash

/-- A rule's own variable is bound at its first meeting; from then on it is equated. -/
def assignReferent (k : Env) (l : Variable) (r : Referent) (judge : Judge := Payload.agrees) :
    Except Fault Outcome :=
  match k.referent? l with
  | none =>
    match r with
    | .var v =>
      if k.declares v then .ok (.learned (k.setLocal l r)) else .error (.unknownVariable v)
    | .const _ => .ok (.learned (k.setLocal l r))
  | some p =>
    match p.agrees r judge with
    | .error cause => .error (.payload cause)
    | .ok true => .ok .known
    | .ok false => k.equate p r judge

/-- Learns that a rule's own variable stands for a term. A hole says nothing, and a
keyword is nothing that a variable can stand for. -/
def assign (k : Env) (l : Variable) (t : Term) (judge : Judge := Payload.agrees) :
    Except Fault Outcome :=
  match t with
  | .hole => .ok .known
  | .keyword _ => .ok .clash
  | .const c => k.assignReferent l (.const c) judge
  | .var v => k.assignReferent l (.var v) judge

end Env

end Deduction
