import Deduction.Proofs.WellFormed

/-!
# What learning changes

An attempt to learn an equation takes one elementary update at most, which places a status at an
unresolved variable or binds an unbound variable of the rule. So learning and matching declare no
variable, issue no number and stay in their scope.
-/

namespace Deduction

namespace Env

/-- The same variables are declared, under the same numbers and in the same scope, and what was
bound stays bound. -/
structure SameFrame (k k' : Env) : Prop where
  declares_eq : ∀ v, k'.declares v = k.declares v
  scope_eq : k'.scope = k.scope
  next_eq : k'.next = k.next
  bindings : ∀ {l r}, k.referent? l = some r → k'.referent? l = some r

variable {U : Constant → Prop} {k k₁ k' : Env}

/-- An environment has its own frame. -/
theorem SameFrame.refl (k : Env) : k.SameFrame k := ⟨fun _ => rfl, rfl, rfl, id⟩

/-- The frame stays the same over several attempts. -/
theorem SameFrame.trans (h : k.SameFrame k₁) (h' : k₁.SameFrame k') : k.SameFrame k' where
  declares_eq v := (h'.declares_eq v).trans (h.declares_eq v)
  scope_eq := h'.scope_eq.trans h.scope_eq
  next_eq := h'.next_eq.trans h.next_eq
  bindings hl := h'.bindings (h.bindings hl)

/-- An update that issues no variable stays in the frame of the environment. -/
theorem Update.sameFrame (h : Update U k k') (hnext : k'.next = k.next) : k.SameFrame k' := by
  cases h with
  | resolved hv _ => exact ⟨fun w => declares_setStatus hv, rfl, rfl, id⟩
  | linked hv _ _ => exact ⟨fun w => declares_setStatus hv, rfl, rfl, id⟩
  | bound hl _ => exact ⟨fun _ => rfl, rfl, rfl, fun hl' => VarMap.get?_insert_of_absent _ hl hl'⟩
  | issued => exact absurd hnext (Nat.succ_ne_self _)
  | renamed hl =>
    rw [declareLocal_of_unbound hl] at hnext
    exact absurd hnext (Nat.succ_ne_self _)

end Env

/-- Whatever an attempt finds, the frame of the environment stays the same. -/
theorem Outcome.Updates.sameFrame {U : Constant → Prop} {o : Outcome} {k k' : Env}
    (h : o.Updates U k k') : k.SameFrame k' := by
  rcases h with ⟨_, rfl⟩ | ⟨_, hupdate, hnext⟩
  · exact .refl _
  · exact hupdate.sameFrame hnext

namespace Env

variable {judge : Judge} {k k' : Env} {o : Outcome}

/-- Only a hole leaves a variable of the rule unbound, and what it is assigned is a referent. -/
theorem exists_referent_of_assign {l : Variable} {t : Term} (ht : t ≠ .hole)
    (h : k.assign l t judge = .ok o) (ho : o.after k = some k') :
    ∃ r p, k'.referent? l = some r ∧ t = Referent.toTerm p := by
  have hbound : ∀ {p}, k.assignReferent l p judge = .ok o → ∃ r, k'.referent? l = some r := by
    intro p hp
    cases hl : k.referent? l with
    | none =>
      rw [((assignReferent_of_unbound_iff hl).mp hp).2] at ho
      cases ho
      exact ⟨p, VarMap.get?_insert_self _ _ _⟩
    | some r =>
      have hupdates := assignReferent_updates k.over_univ (fun _ _ => trivial) hp ho
      exact ⟨r, hupdates.sameFrame.bindings hl⟩
  cases t with
  | hole => exact absurd rfl ht
  | keyword a => cases h; cases ho
  | const c =>
    rw [assign] at h
    obtain ⟨r, hr⟩ := hbound h
    exact ⟨r, .const c, hr, rfl⟩
  | var v =>
    rw [assign] at h
    obtain ⟨r, hr⟩ := hbound h
    exact ⟨r, .var v, hr, rfl⟩

end Env

/-! ## Matching -/

variable {judge : Judge} {k k' : Env}

/-- Matching terms pairwise stays in the frame of the environment. -/
theorem Pattern.matchTerms_sameFrame {condition goal : Pattern}
    (h : Pattern.matchTerms condition goal k judge = .ok (some k')) : k.SameFrame k' := by
  induction condition generalizing goal k with
  | nil =>
    simp only [Pattern.matchTerms] at h
    cases h
    exact .refl _
  | cons s ss ih =>
    cases goal with
    | nil =>
      simp only [Pattern.matchTerms] at h
      cases h
      exact .refl _
    | cons t ts =>
      rw [Pattern.matchTerms] at h
      split at h
      · cases h
      · rename_i o ho
        split at h
        · cases h
        · rename_i k₁ hk₁
          have hupdates := Term.matchGoal_updates k.over_univ (fun _ _ => trivial)
            (fun _ _ => trivial) ho hk₁
          exact hupdates.sameFrame.trans (ih h)

/-- A variable of a condition is bound where the goal has no hole, and the goal has a referent
there. -/
theorem Pattern.exists_referent_of_matchTerms {condition goal : Pattern}
    (h : Pattern.matchTerms condition goal k judge = .ok (some k')) {i : Nat} {l : Variable}
    {t : Term} (hl : condition[i]? = some (.var l)) (ht : goal[i]? = some t) (hne : t ≠ .hole) :
    ∃ r p, k'.referent? l = some r ∧ t = Referent.toTerm p := by
  induction condition generalizing goal k i with
  | nil => simp at hl
  | cons a as ih =>
    cases goal with
    | nil => simp at ht
    | cons u us =>
      rw [Pattern.matchTerms] at h
      split at h
      · cases h
      · rename_i o ho
        split at h
        · cases h
        · rename_i k₁ hk₁
          cases i with
          | zero =>
            obtain rfl : a = .var l := by simpa using hl
            obtain rfl : u = t := by simpa using ht
            rw [Term.matchGoal_var] at ho
            obtain ⟨r, p, hr, hp⟩ := Env.exists_referent_of_assign hne ho hk₁
            exact ⟨r, p, (Pattern.matchTerms_sameFrame h).bindings hr, hp⟩
          | succ i => exact ih h (by simpa using hl) (by simpa using ht)

/-- A match declares no variable. -/
theorem Pattern.declares_of_matchGoal {condition goal : Pattern}
    (h : Pattern.matchGoal condition goal k judge = .ok (some k')) (v : Variable) :
    k'.declares v = k.declares v := by
  rw [Pattern.matchGoal] at h
  split at h
  · exact (Pattern.matchTerms_sameFrame h).declares_eq v
  · cases h

end Deduction
