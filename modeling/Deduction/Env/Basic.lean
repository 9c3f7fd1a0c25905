import Deduction.Fault
import Deduction.VarMap

/-!
# Environments

An environment records what is known of every declared variable: nothing yet, a
constant, or that it stands for whatever another variable stands for. Links form
chains, and the end of a chain, its root, tells what all its variables stand for.
Beside the declared variables an environment binds the own variables of the rule
that is being applied, and it counts the variables it has issued.
-/

namespace Deduction

/-- What is known of a declared variable. -/
inductive Status where
  | unresolved
  | resolved (value : Constant)
  | linked (target : Variable)
  deriving DecidableEq, Repr

/-- Equality of statuses in which a failing payload comparison counts as unequal. -/
def Status.same : Status → Status → Bool
  | unresolved, unresolved => true
  | resolved c, resolved d => (c.agrees d).holds
  | linked v, linked w => v == w
  | _, _ => false

/-- Whether variables of a goal belong to the query or to the rule being applied. -/
inductive Scope where
  | query
  | rule
  deriving DecidableEq, Repr

/-- Declared variables with their statuses, the current rule's own variables with
their referents, the scope, and the number the next issued variable gets. -/
structure Env where
  statuses : VarMap Status
  locals : VarMap Referent
  scope : Scope
  next : Nat
  deriving DecidableEq, Repr

/-- The end of a chain of links, with its constant if it has one. -/
structure Root where
  last : Variable
  value : Option Constant
  deriving DecidableEq, Repr

namespace Env

/-- The query environment that declares the listed variables and knows nothing of them. -/
def declaring (vs : List Variable) : Env where
  statuses := VarMap.constant vs .unresolved
  locals := VarMap.empty
  scope := .query
  next := 0

/-- A variable is declared when it has a status. -/
def declares (k : Env) (v : Variable) : Bool := k.statuses.contains v

/-- The status of a declared variable. -/
def status (k : Env) (v : Variable) : Except Fault Status :=
  match k.statuses.get? v with
  | none => .error (.unknownVariable v)
  | some s => .ok s

/-- The referent of the current rule's own variable. -/
def referent? (k : Env) (l : Variable) : Option Referent := k.locals.get? l

/-- Follows links for at most the given number of variables. A chain that does not
repeat a variable leaves the declared ones when it is longer than their number. -/
def follow (statuses : VarMap Status) : Nat → Variable → Except Fault Root
  | 0, v => .error (.unknownVariable v)
  | steps + 1, v =>
    match statuses.get? v with
    | none => .error (.unknownVariable v)
    | some .unresolved => .ok ⟨v, none⟩
    | some (.resolved c) => .ok ⟨v, some c⟩
    | some (.linked w) => follow statuses steps w

/-- The root of a variable's chain of links. -/
def root (k : Env) (v : Variable) : Except Fault Root :=
  follow k.statuses k.statuses.size v

/-- The constant a declared variable stands for, if it is known. -/
def valueOf (k : Env) (v : Variable) : Except Fault (Option Constant) :=
  (k.root v).map Root.value

/-- The constant a rule's own variable stands for, if it is known. -/
def lookup (k : Env) (l : Variable) : Except Fault (Option Constant) :=
  match k.referent? l with
  | none => .ok none
  | some (.const c) => .ok (some c)
  | some (.var v) => k.valueOf v

/-- Sets the status of a variable. -/
def setStatus (k : Env) (v : Variable) (s : Status) : Env :=
  { k with statuses := k.statuses.insert v s }

/-- Binds a rule's own variable. -/
def setLocal (k : Env) (l : Variable) (r : Referent) : Env :=
  { k with locals := k.locals.insert l r }

/-- Equal statuses and referents; a failing payload comparison counts as unequal. -/
def same (k k' : Env) : Bool :=
  k.statuses.agrees Status.same k'.statuses &&
    k.locals.agrees (fun r s => (r.agrees s).holds) k'.locals

end Env

end Deduction
