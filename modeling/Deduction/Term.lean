import Deduction.Payload
import Deduction.Variable

/-!
# Terms

A constant is an atom or a value. A term adds keywords, which stand only for
themselves, variables, and the hole, which accepts anything but a keyword. A
pattern is a list of terms. An expression nests terms in phrases, which are
flattened before they can be matched.
-/

namespace Deduction

/-- What a variable can stand for in the end: an atom, or a value with its payload. -/
inductive Constant where
  | atom (name : String)
  | value (payload : Payload)
  deriving DecidableEq, Repr

/-- A word that stands only for itself. The definition sign differs from every name. -/
inductive Keyword where
  | named (name : String)
  | definition
  deriving DecidableEq, Repr

/-- A term that takes part in matching. -/
inductive Term where
  | keyword (word : Keyword)
  | const (value : Constant)
  | var (name : Variable)
  | hole
  deriving DecidableEq, Repr

/-- A condition or a goal: terms in fixed positions. -/
abbrev Pattern := List Term

/-- What a rule's own variable is bound to: a constant or a declared variable. -/
inductive Referent where
  | const (value : Constant)
  | var (name : Variable)
  deriving DecidableEq, Repr

/-- A term, or a phrase of expressions that stands for the value it defines. -/
inductive Expr where
  | term (value : Term)
  | phrase (elements : List Expr)
  deriving Repr

namespace Constant

/-- Atoms agree by name, values as the judge of their payloads says, and the two kinds never. Unless
another judge is given, the payloads compare themselves. -/
def agrees (c d : Constant) (judge : Judge := Payload.agrees) : Comparison :=
  match c, d with
  | atom a, atom b => .ok (a == b)
  | value p, value q => judge p q
  | atom _, value _ | value _, atom _ => .ok false

/-- A judge that finds payloads equal to themselves finds constants equal to themselves. -/
theorem agrees_refl {judge : Judge} (hself : ∀ p, judge p p = .ok true) (c : Constant) :
    c.agrees c judge = .ok true := by
  cases c <;> simp [agrees, hself]

@[simp] theorem agrees_self (c : Constant) : c.agrees c = .ok true :=
  agrees_refl Payload.agrees_self c

/-- An atom after an apostrophe, or a payload between brackets. -/
def render : Constant → String
  | atom name => "\x27" ++ name
  | value p => "[" ++ p.render ++ "]"

/-- The integer a constant holds. -/
def int? : Constant → Option Int64
  | value (.int n) => some n
  | _ => none

end Constant

namespace Keyword

/-- The word as it is written. -/
def render : Keyword → String
  | named name => name
  | definition => ":="

end Keyword

namespace Referent

/-- A referent seen as a term. -/
def toTerm : Referent → Term
  | const c => .const c
  | var v => .var v

/-- Variables agree by identity, constants under the judge, and the two kinds never. -/
def agrees (r s : Referent) (judge : Judge := Payload.agrees) : Comparison :=
  match r, s with
  | const c, const d => c.agrees d judge
  | var v, var w => .ok (v == w)
  | const _, var _ | var _, const _ => .ok false

/-- A judge that finds payloads equal to themselves finds referents equal to themselves. -/
theorem agrees_refl {judge : Judge} (hself : ∀ p, judge p p = .ok true) (r : Referent) :
    r.agrees r judge = .ok true := by
  cases r <;> simp [agrees, Constant.agrees_refl hself]

@[simp] theorem agrees_self (r : Referent) : r.agrees r = .ok true :=
  agrees_refl Payload.agrees_self r

end Referent

namespace Term

/-- The variable a term is, if it is one. -/
def var? : Term → Option Variable
  | var v => some v
  | keyword _ | const _ | hole => none

/-- The constant a term is, if it is one. -/
def const? : Term → Option Constant
  | const c => some c
  | keyword _ | var _ | hole => none

/-- Equality of terms that reports a failing payload comparison. -/
def agrees : Term → Term → Comparison
  | keyword a, keyword b => .ok (a == b)
  | const c, const d => c.agrees d
  | var v, var w => .ok (v == w)
  | hole, hole => .ok true
  | _, _ => .ok false

/-- Equality of terms in which a failing comparison counts as unequal. -/
def same (s t : Term) : Bool := (s.agrees t).holds

/-- A term as it is written in a pattern. -/
def render : Term → String
  | keyword k => k.render
  | const c => c.render
  | var v => v.render
  | hole => "_"

end Term

/-- The definition pattern that makes a variable stand for the listed elements. -/
def Variable.definedBy (v : Variable) (elements : List Term) : Pattern :=
  .var v :: .keyword .definition :: elements

namespace Pattern

/-- Position by position the same terms. -/
def same : Pattern → Pattern → Bool
  | [], [] => true
  | s :: ss, t :: ts => s.same t && same ss ts
  | [], _ :: _ | _ :: _, [] => false

/-- The terms with a space between any two. -/
def render (p : Pattern) : String := " ".intercalate (p.map Term.render)

end Pattern

namespace Expr

/-- The term an expression is, unless it is a phrase. -/
def term? : Expr → Option Term
  | term t => some t
  | phrase _ => none

mutual

/-- Expressions are compared element by element. -/
def decEq : (e f : Expr) → Decidable (e = f)
  | term s, term t => decidable_of_iff (s = t) (by simp)
  | phrase es, phrase fs => @decidable_of_iff _ (es = fs) (by simp) (decEqAll es fs)
  | term _, phrase _ | phrase _, term _ => isFalse (by simp)

/-- Lists of expressions are compared element by element. -/
def decEqAll : (es fs : List Expr) → Decidable (es = fs)
  | [], [] => isTrue rfl
  | e :: es, f :: fs =>
    @decidable_of_iff _ (e = f ∧ es = fs) (by simp)
      (@instDecidableAnd _ _ (decEq e f) (decEqAll es fs))
  | [], _ :: _ | _ :: _, [] => isFalse (by simp)

end

instance : DecidableEq Expr := decEq

mutual

/-- An expression as it is written; a phrase stands between parentheses. -/
def render : Expr → String
  | term t => t.render
  | phrase es => "(" ++ " ".intercalate (renderAll es) ++ ")"

/-- The elements of a phrase as they are written. -/
def renderAll : List Expr → List String
  | [] => []
  | e :: es => e.render :: renderAll es

end

mutual

/-- Equality of expressions in which a failing payload comparison counts as unequal. -/
def same : Expr → Expr → Bool
  | term s, term t => s.same t
  | phrase es, phrase fs => sameAll es fs
  | term _, phrase _ | phrase _, term _ => false

/-- Element by element the same expressions. -/
def sameAll : List Expr → List Expr → Bool
  | [], [] => true
  | e :: es, f :: fs => e.same f && sameAll es fs
  | [], _ :: _ | _ :: _, [] => false

end

end Expr

end Deduction
