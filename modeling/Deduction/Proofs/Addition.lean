import Deduction.Host.Script
import Deduction.Proofs.Update

/-!
# Operations that only add knowledge

Learning an equation, matching two terms, declaring a variable and flattening: none of them
takes anything back. They are all the operations that a host goal needs for its answers, and
scripted host goals use no other ones.
-/

namespace Deduction

open Relation

namespace Env

/-- One operation that only adds to an environment. -/
inductive Addition (k : Env) : Env → Prop
  | resolve {v : Variable} {c : Constant} {o : Outcome} {k' : Env} (h : k.resolve v c = .ok o)
      (ho : o.after k = some k') : Addition k k'
  | link {v w : Variable} {o : Outcome} {k' : Env} (h : k.link v w = .ok o)
      (ho : o.after k = some k') : Addition k k'
  | assign {l : Variable} {t : Term} {o : Outcome} {k' : Env} (h : k.assign l t = .ok o)
      (ho : o.after k = some k') : Addition k k'
  | matchTerm {s t : Term} {o : Outcome} {k' : Env} (h : s.matchGoal k t = .ok o)
      (ho : o.after k = some k') : Addition k k'
  | declareLocal (l : Variable) : Addition k (k.declareLocal l).2
  | issueTemporary (stem : String) : Addition k (k.issueTemporary stem).2
  | expandVariable {v : Variable} {r : Referent} {k' : Env}
      (h : k.expandVariable v = .ok (r, k')) : Addition k k'
  | flatten {e : Expr} {x : FlatTerm} (h : e.flatten k = .ok x) : Addition k x.env
  | flattenPhrase {es : List Expr} {x : FlatPhrase} (h : Expr.flattenPhrase es k = .ok x) :
      Addition k x.env

/-- A run of operations that only add. -/
abbrev Additions : Env → Env → Prop := ReflTransGen Addition

variable {k k' : Env}

/-- What is added is added by elementary updates. -/
theorem Addition.evolves (h : Addition k k') : k.Evolves (fun _ => True) k' := by
  have hany : ∀ t : Term, t.Over fun _ => True := fun _ _ _ => trivial
  cases h with
  | resolve h ho => exact (resolve_updates h ho trivial).evolves
  | link h ho => exact (link_updates k.over_univ h ho).evolves
  | assign h ho => exact (assign_updates k.over_univ (hany _) h ho).evolves
  | matchTerm h ho => exact (Term.matchGoal_updates k.over_univ (hany _) (hany _) h ho).evolves
  | declareLocal l => exact k.declareLocal_evolves l
  | issueTemporary stem => exact .single .issued
  | expandVariable h => exact expandVariable_evolves h
  | flatten h => exact Expr.flatten_evolves h
  | flattenPhrase h => exact Expr.flattenAll_evolves h

/-- A run of additions is a run of elementary updates. -/
theorem Additions.evolves (h : k.Additions k') : k.Evolves (fun _ => True) k' := by
  induction h with
  | refl => exact .refl
  | tail _ hstep ih => exact ih.trans hstep.evolves

end Env

/-- A host goal that makes its answers from the environment it is given by adding to it. -/
def Host.OnlyAdds (h : Host) : Prop :=
  ∀ k n t k', h.turn k n = some t → t.outcome = .ok (some k') → k.Additions k'

/-! ## Scripted host goals -/

/-- What an action learns is an addition if the attempt itself makes one. -/
theorem Action.additions_of_learn {k k' : Env} {attempt : Except Fault Outcome}
    (hstep : ∀ {o}, attempt = .ok o → o.after k = some k' → k.Addition k')
    (h : Action.learn k attempt = .ok (some k')) : k.Additions k' := by
  cases hattempt : attempt with
  | error f => rw [hattempt] at h; cases h
  | ok o =>
    rw [hattempt] at h
    exact .single (hstep hattempt (Except.ok.inj h))

/-- An action that only asks for a value adds nothing. -/
theorem Action.additions_of_require {k k' : Env} {value : Except Fault (Option Constant)}
    (h : Action.require k value = .ok (some k')) : k.Additions k' := by
  cases value with
  | error f => cases h
  | ok c =>
    cases c with
    | none => cases h
    | some c => cases h; exact .refl

/-- An action adds to its environment or leaves it as it is. -/
theorem Action.additions_of_run {host : String} {k k' : Env} {a : Action}
    (h : a.run host k = .ok (some k')) : k.Additions k' := by
  cases a with
  | succeed => cases h; exact .refl
  | fail => cases h
  | giveUp reason => cases h
  | resolve v c => exact additions_of_learn .resolve h
  | assign l t => exact additions_of_learn .assign h
  | link v w => exact additions_of_learn .link h
  | assignFresh l =>
    exact .trans (.single (.issueTemporary freshStem)) (additions_of_learn .assign h)
  | isResolved v => exact additions_of_require h
  | isBound l => exact additions_of_require h
  | less left right =>
    rw [run] at h
    cases hoperands : operands host k left right with
    | error f => rw [hoperands] at h; cases h
    | ok ab =>
      rw [hoperands] at h
      simp only [Except.map, Except.ok.injEq] at h
      split at h
      · cases h; exact .refl
      · cases h
  | compute op left right result =>
    rw [run] at h
    split at h
    · cases h
    · split at h
      · cases h
      · cases h; exact .refl
      · exact additions_of_learn .assign h

/-- Whatever a script does in one turn, it arrives there by additions. -/
theorem Script.additions_of_run {host : String} {s : Script} {k k' : Env}
    (h : (s.run host k).outcome = .ok (some k')) : k.Additions k' := by
  induction s generalizing k k' with
  | action a => exact Action.additions_of_run h
  | log text => cases h; exact .refl
  | andThen p q ihp ihq =>
    rw [run] at h
    split at h
    · rename_i k₁ hk₁
      exact (ihp hk₁).trans (ihq h)
    · rename_i hnone
      rw [hnone] at h
      cases h
    · rename_i f hf
      rw [hf] at h
      cases h

/-- A host goal that runs a script only adds to what is known. -/
theorem Host.onlyAdds_script (name : String) (object : Nat) (s : Script) :
    (Host.script name object s).OnlyAdds := by
  intro k n t k' ht ho
  cases n with
  | zero => cases ht; exact Script.additions_of_run ho
  | succ n => cases ht

end Deduction
