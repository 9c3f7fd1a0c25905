import Deduction.Env.Scoping
import Deduction.Goal

/-!
# Flattening phrases

A phrase takes part in matching only after it was flattened: its elements become
terms, from left to right, and every phrase nested in it becomes a temporary. The
prelude defines these temporaries, inner ones before the outer ones that use them.
-/

namespace Deduction

/-- The definitions of the temporaries that flattening has issued, in the order in
which they are to be solved. -/
inductive Prelude where
  | empty
  | define (temporary : Variable) (elements : List Term)
  | both (first second : Prelude)
  deriving DecidableEq, Repr

namespace Prelude

/-- One prelude after the other. -/
def conj : Prelude → Prelude → Prelude
  | empty, q => q
  | p, empty => p
  | p, q => both p q

/-- The goal that solves the definitions in order. -/
def toGoal : Prelude → Goal
  | empty => .truth
  | define t es => .apply (t.definedBy es)
  | both p q => .and p.toGoal q.toGoal

end Prelude

/-- An expression as a term, with the prelude that defines its temporaries and the
environment that declares them. -/
structure FlatTerm where
  term : Term
  prelude : Prelude
  env : Env
  deriving DecidableEq, Repr

/-- The elements of a phrase as terms, with prelude and environment. -/
structure FlatPhrase where
  terms : Pattern
  prelude : Prelude
  env : Env
  deriving DecidableEq, Repr

/-- Solves the definitions ahead of a goal. -/
def FlatTerm.update (x : FlatTerm) (p : Goal) : Goal := x.prelude.toGoal.conj p

/-- Solves the definitions and then applies the rules that match the terms. -/
def FlatPhrase.goal (x : FlatPhrase) : Goal := x.prelude.toGoal.conj (.apply x.terms)

namespace Expr

/-- Names the temporaries that stand for phrases. -/
def phraseStem : String := "phrase"

mutual

/-- Flattens an expression. A variable stands for what the scope says, a phrase for a
temporary that is issued after its elements were flattened. -/
def flatten : Expr → Env → Except Fault FlatTerm
  | term (.var v), k =>
    match k.expandVariable v with
    | .error f => .error f
    | .ok (r, k') => .ok ⟨r.toTerm, .empty, k'⟩
  | term t, k => .ok ⟨t, .empty, k⟩
  | phrase es, k =>
    match flattenAll es .empty k with
    | .error f => .error f
    | .ok x =>
      let (t, k') := x.env.issueTemporary phraseStem
      .ok ⟨.var t, x.prelude.conj (.define t x.terms), k'⟩

/-- Flattens the elements of a phrase from left to right, after an earlier prelude. -/
def flattenAll : List Expr → Prelude → Env → Except Fault FlatPhrase
  | [], before, k => .ok ⟨[], before, k⟩
  | e :: es, before, k =>
    match flatten e k with
    | .error f => .error f
    | .ok x =>
      match flattenAll es (before.conj x.prelude) x.env with
      | .error f => .error f
      | .ok y => .ok { y with terms := x.term :: y.terms }

end

/-- Flattens a phrase that is itself to be solved. -/
def flattenPhrase (es : List Expr) (k : Env) : Except Fault FlatPhrase := flattenAll es .empty k

end Expr

end Deduction
