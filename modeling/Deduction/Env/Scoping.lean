import Deduction.Env.Basic

/-!
# Scopes

A rule is applied in a scope of its own: matching starts without bindings, the
rule's variables are declared under fresh numbers as its body meets them, and
once the body is done the caller's bindings come back. Variables issued meanwhile
are dropped, except the unresolved roots that keep the caller's variables linked.
-/

namespace Deduction

namespace Env

/-- Enters the scope of a rule, whose variables are all unbound. -/
def startMatching (k : Env) : Env :=
  { k with locals := VarMap.empty, scope := .rule }

/-! ## Issuing variables -/

/-- Declares a temporary under the next number. -/
def issueTemporary (k : Env) (stem : String) : Variable × Env :=
  let t := .temporary stem k.next
  (t, { k with statuses := k.statuses.insert t .unresolved, next := k.next + 1 })

/-- The referent of a rule's own variable, which is first declared under the next
number and bound to that if it is still unbound. -/
def declareLocal (k : Env) (l : Variable) : Referent × Env :=
  match k.referent? l with
  | some r => (r, k)
  | none =>
    let v := .renamed l.name k.next
    (.var v, { k with
      statuses := k.statuses.insert v .unresolved
      locals := k.locals.insert l (.var v)
      next := k.next + 1 })

/-- What a variable written in a goal stands for. In a query it stands for itself and
must be declared. In a rule it is the rule's own, unless it was issued and declared. -/
def expandVariable (k : Env) (v : Variable) : Except Fault (Referent × Env) :=
  match k.scope with
  | .query => if k.declares v then .ok (.var v, k) else .error (.unknownVariable v)
  | .rule =>
    if k.referent? v = none ∧ v.IsIssued ∧ k.declares v then .ok (.var v, k)
    else .ok (k.declareLocal v)

/-! ## Leaving a scope -/

/-- The status of an outer variable after the inner scope was left. A link that leaves the
outer variables is replaced by what its chain ends in. -/
def outerStatus (inner outer : Env) (v : Variable) : Except Fault Status :=
  match inner.status v with
  | .error f => .error f
  | .ok (.linked w) =>
    if outer.declares w then .ok (.linked w)
    else match inner.root w with
      | .error f => .error f
      | .ok ⟨_, some c⟩ => .ok (.resolved c)
      | .ok ⟨last, none⟩ => .ok (.linked last)
  | .ok s => .ok s

/-- Declares a link's target that is missing among the outer variables. -/
def keepTarget (outer : Env) (kept : VarMap Status) : Status → VarMap Status
  | .linked w => if outer.declares w then kept else kept.insert w .unresolved
  | .unresolved | .resolved _ => kept

/-- The statuses of the outer variables, one after the other, and of the unresolved roots
that they are linked to. -/
def retainEach (inner outer : Env) : Except Fault (VarMap Status) :=
  (outer.statuses.rebuild (inner.outerStatus outer)).map fun statuses =>
    statuses.entries.foldl (fun kept entry => keepTarget outer kept entry.2) statuses

/-- The statuses that survive in the outer scope. Where both environments declare
equally many variables nothing is dropped. -/
def retained (inner outer : Env) : Except Fault (VarMap Status) :=
  if inner.statuses.size = outer.statuses.size then .ok inner.statuses
  else retainEach inner outer

/-- Returns to the bindings and the scope of an outer environment, keeping all that
was learned about its variables. -/
def restore (inner outer : Env) : Except Fault Env :=
  (inner.retained outer).map fun statuses =>
    { statuses
      locals := outer.locals
      scope := outer.scope
      next := max inner.next outer.next }

end Env

end Deduction
