import Deduction.Proofs.Update

/-!
# Well-formed environments

An environment is well formed when every chain ends, every bound variable refers to a
constant or to a declared variable, and the numbers of issued variables are used up.
One environment extends another when it keeps all that is known there: only unresolved
variables learn something, and variables declared since carry new numbers. Matching
and flattening keep environments well formed and extend them.
-/

namespace Deduction

namespace Env

/-- Issued variables carry numbers below the next one. -/
def Numbered (k : Env) : Prop := ∀ {v i}, k.declares v = true → v.id? = some i → i < k.next

/-- Chains end among the declared variables, referents are declared, and issued
variables carry numbers below the next one. -/
structure WellFormed (k : Env) : Prop where
  grounded : Grounded k.statuses
  referents : ∀ {l v}, k.referent? l = some (.var v) → k.declares v = true
  numbered : k.Numbered

/-- All that is known in the first environment is known in the second one, and what the
second one declares beside it was issued later. -/
structure Extends (k k' : Env) : Prop where
  kept : ∀ {v s}, k.statuses.get? v = some s → s ≠ .unresolved → k'.statuses.get? v = some s
  declared : ∀ {v}, k.declares v = true → k'.declares v = true
  issued : ∀ {v}, k'.declares v = true → k.declares v = false → ∃ i, v.id? = some i ∧ k.next ≤ i
  next_le : k.next ≤ k'.next

/-- An extension in the same scope that keeps the bindings of the rule's own variables. -/
structure Continues (k k' : Env) : Prop extends Extends k k' where
  bindings : ∀ {l r}, k.referent? l = some r → k'.referent? l = some r
  scope : k'.scope = k.scope

variable {U : Constant → Prop} {k k₁ k' : Env}

/-- An environment extends itself. -/
theorem Extends.refl (k : Env) : k.Extends k where
  kept h _ := h
  declared h := h
  issued h h' := by rw [h] at h'; cases h'
  next_le := Nat.le_refl _

/-- Extensions can be composed. -/
theorem Extends.trans (h : k.Extends k₁) (h' : k₁.Extends k') : k.Extends k' where
  kept hv hs := h'.kept (h.kept hv hs) hs
  declared hv := h'.declared (h.declared hv)
  issued {v} hv hnot := by
    cases hv₁ : k₁.declares v with
    | true => exact h.issued hv₁ hnot
    | false =>
      obtain ⟨i, hi, hle⟩ := h'.issued hv hv₁
      exact ⟨i, hi, Nat.le_trans h.next_le hle⟩
  next_le := Nat.le_trans h.next_le h'.next_le

/-- An environment continues itself. -/
theorem Continues.refl (k : Env) : k.Continues k where
  toExtends := Extends.refl k
  bindings h := h
  scope := rfl

/-- Continuations can be composed. -/
theorem Continues.trans (h : k.Continues k₁) (h' : k₁.Continues k') : k.Continues k' where
  toExtends := h.toExtends.trans h'.toExtends
  bindings hl := h'.bindings (h.bindings hl)
  scope := h'.scope.trans h.scope

/-- An environment of a query declares no issued variable at its start. -/
theorem id?_of_declaring {names : List String} {v : Variable}
    (hv : (declaring (names.map .named)).declares v = true) : v.id? = none := by
  obtain ⟨s, hs⟩ := VarMap.contains_iff.mp hv
  rw [declaring, VarMap.get?_constant] at hs
  split at hs
  · rename_i hmem
    obtain ⟨n, _, rfl⟩ := List.mem_map.mp hmem
    rfl
  · cases hs

/-- The environment that knows nothing of its named variables is well formed. -/
theorem wellFormed_declaring (names : List String) :
    (declaring (names.map .named)).WellFormed where
  grounded := grounded_constant _
  referents h := by simp [referent?, declaring] at h
  numbered hv hi := by simp [id?_of_declaring hv] at hi

/-- An environment that knows nothing knows no constant. -/
theorem over_declaring (U : Constant → Prop) (vs : List Variable) : (declaring vs).Over U := by
  constructor <;> simp [declaring, referent?, VarMap.get?_constant]

/-- The declared variables are those with a status. -/
theorem declares_iff {v : Variable} : k.declares v = true ↔ ∃ s, k.statuses.get? v = some s :=
  VarMap.contains_iff

/-- A variable that carries the next number is not declared yet. -/
theorem Numbered.get?_next (hk : k.Numbered) {v : Variable} (hv : v.id? = some k.next) :
    k.statuses.get? v = none := by
  cases hs : k.statuses.get? v with
  | none => rfl
  | some s => exact absurd (hk (declares_iff.mpr ⟨s, hs⟩) hv) (Nat.lt_irrefl _)

/-- Declared variables have roots. -/
theorem WellFormed.root_eq (hk : k.WellFormed) {v : Variable} (hv : k.declares v = true) :
    ∃ r, k.root v = .ok r ∧ Ends k.statuses v r := by
  obtain ⟨r, hr⟩ := hk.grounded v hv
  exact ⟨r, hr.root_eq, hr⟩

/-- A referent that is a variable is declared. -/
def declaresReferent (k : Env) : Referent → Bool
  | .const _ => true
  | .var v => k.declares v

/-- Whether an environment is well formed is seen from its entries. -/
theorem wellFormed_iff :
    k.WellFormed ↔ (∀ v ∈ k.statuses.keys, (k.root v).isOk = true ∧ ∀ i ∈ v.id?, i < k.next) ∧
      ∀ entry ∈ k.locals.entries, k.declaresReferent entry.2 = true := by
  constructor
  · intro hk
    refine ⟨fun v hv => ?_, fun ⟨l, r⟩ hentry => ?_⟩
    · have hv := VarMap.mem_keys.mp hv
      obtain ⟨r, hr, _⟩ := hk.root_eq hv
      rw [hr]
      exact ⟨rfl, fun i hi => hk.numbered hv hi⟩
    · cases r with
      | const c => rfl
      | var v => exact hk.referents (VarMap.get?_eq_some_iff.mpr hentry)
  · rintro ⟨hstatuses, hlocals⟩
    refine ⟨fun v hv => ?_, fun hl => hlocals _ (VarMap.get?_eq_some_iff.mp hl), fun hv hi => ?_⟩
    · have hroot := (hstatuses v (VarMap.mem_keys.mpr hv)).1
      cases hr : k.root v with
      | ok r => exact ⟨r, root_eq_ok_iff.mp hr⟩
      | error f =>
        rw [hr] at hroot
        cases hroot
    · exact (hstatuses _ (VarMap.mem_keys.mpr hv)).2 _ hi

instance (k : Env) : Decidable k.WellFormed := decidable_of_iff _ wellFormed_iff.symm

/-! ## Updates -/

/-- Setting the status of an unresolved variable extends an environment. -/
theorem continues_setStatus {v : Variable} (s : Status)
    (hv : k.statuses.get? v = some .unresolved) : k.Continues (k.setStatus v s) where
  kept {w t} hw ht := by
    have hne : w ≠ v := by
      rintro rfl
      rw [hv] at hw
      exact ht (Option.some.inj hw).symm
    rw [setStatus_statuses, VarMap.get?_insert_of_ne _ s hne, hw]
  declared {w} hw := by
    rw [declares, setStatus_statuses, VarMap.contains_insert, Bool.or_eq_true]
    exact Or.inr hw
  issued {w} hw hnot := by
    rw [declares, setStatus_statuses, VarMap.contains_insert, Bool.or_eq_true,
      decide_eq_true_eq] at hw
    rcases hw with rfl | hw
    · rw [declares_iff.mpr ⟨_, hv⟩] at hnot
      cases hnot
    · rw [declares, hw] at hnot
      cases hnot
  next_le := Nat.le_refl _
  bindings h := h
  scope := rfl

/-- Declaring a variable under the next number extends an environment. -/
theorem extends_insert_next {locals : VarMap Referent} {v : Variable} (hk : k.Numbered)
    (hv : v.id? = some k.next) :
    k.Extends { k with
      statuses := k.statuses.insert v .unresolved, locals := locals, next := k.next + 1 } where
  kept hw _ := VarMap.get?_insert_of_absent _ (hk.get?_next hv) hw
  declared {w} hw := by
    rw [declares, VarMap.contains_insert, Bool.or_eq_true]
    exact Or.inr hw
  issued {w} hw hnot := by
    rw [declares, VarMap.contains_insert, Bool.or_eq_true, decide_eq_true_eq] at hw
    rcases hw with rfl | hw
    · exact ⟨k.next, hv, Nat.le_refl _⟩
    · rw [declares, hw] at hnot
      cases hnot
  next_le := Nat.le_succ _

/-- Elementary updates extend a well-formed environment. -/
theorem Update.continues (h : Update U k k') (hk : k.Numbered) : k.Continues k' := by
  cases h with
  | resolved hv _ => exact continues_setStatus _ hv
  | linked hv _ _ => exact continues_setStatus _ hv
  | bound hl _ =>
    exact { Continues.refl k with
      bindings := fun hl' => VarMap.get?_insert_of_absent _ hl hl' }
  | issued => exact { extends_insert_next hk rfl with bindings := id, scope := rfl }
  | @renamed l hl =>
    rw [declareLocal_of_unbound hl]
    exact { extends_insert_next hk rfl with
      bindings := fun hl' => VarMap.get?_insert_of_absent _ hl hl', scope := rfl }

/-- A variable under the next number can be declared when that number is used up. -/
theorem Numbered.insert_next {locals : VarMap Referent} {v : Variable} (hk : k.Numbered)
    (hv : v.id? = some k.next) :
    Numbered { k with
      statuses := k.statuses.insert v .unresolved, locals := locals, next := k.next + 1 } := by
  intro w i hw hi
  rw [declares, VarMap.contains_insert, Bool.or_eq_true, decide_eq_true_eq] at hw
  rcases hw with rfl | hw
  · rw [hv] at hi
    cases hi
    exact Nat.lt_succ_self _
  · exact Nat.lt_succ_of_lt (hk hw hi)

/-- A new status of an unresolved variable leaves the declared variables as they were. -/
theorem declares_setStatus {v : Variable} {s : Status}
    (hv : k.statuses.get? v = some .unresolved) {w : Variable} :
    (k.setStatus v s).declares w = k.declares w := by
  rw [declares, setStatus_statuses, VarMap.contains_insert, declares]
  by_cases hw : w = v
  · subst hw
    simp [VarMap.contains, hv]
  · simp [hw]

/-- Elementary updates keep chains from running in circles. -/
theorem Update.grounded (h : Update U k k') (hg : Grounded k.statuses) (hn : k.Numbered) :
    Grounded k'.statuses := by
  cases h with
  | resolved hv _ => exact hg.insert_resolved hv
  | linked hv hr hne => exact hg.insert_linked hv hr hne
  | bound => exact hg
  | issued => exact hg.insert_fresh (hn.get?_next rfl)
  | renamed hl =>
    rw [declareLocal_of_unbound hl]
    exact hg.insert_fresh (hn.get?_next rfl)

/-- Elementary updates use up the numbers they issue. -/
theorem Update.numbered (h : Update U k k') (hn : k.Numbered) : k'.Numbered := by
  cases h with
  | resolved hv _ => exact fun hw => hn ((declares_setStatus hv).symm.trans hw)
  | linked hv _ _ => exact fun hw => hn ((declares_setStatus hv).symm.trans hw)
  | bound => exact hn
  | issued => exact hn.insert_next rfl
  | renamed hl =>
    rw [declareLocal_of_unbound hl]
    exact hn.insert_next rfl

/-- Elementary updates keep environments well formed. -/
theorem Update.wellFormed (h : Update U k k') (hk : k.WellFormed) : k'.WellFormed := by
  refine ⟨h.grounded hk.grounded hk.numbered, fun {l v} hl => ?_, h.numbered hk.numbered⟩
  have hdeclared : ∀ {w}, k.declares w = true → k'.declares w = true :=
    (h.continues hk.numbered).declared
  cases h with
  | resolved => exact hdeclared (hk.referents hl)
  | linked => exact hdeclared (hk.referents hl)
  | @bound l' r hl' hr =>
    rcases VarMap.get?_insert_cases hl with ⟨_, rfl⟩ | hl
    · exact hr
    · exact hk.referents hl
  | issued => exact hdeclared (hk.referents hl)
  | @renamed l' hl' =>
    rw [declareLocal_of_unbound hl'] at hl hdeclared ⊢
    rcases VarMap.get?_insert_cases hl with ⟨_, hvar⟩ | hl
    · cases hvar
      exact declares_iff.mpr ⟨_, VarMap.get?_insert_self _ _ _⟩
    · exact hdeclared (hk.referents hl)

/-- A run of updates keeps an environment well formed and extends it. -/
theorem Evolves.wellFormed (h : k.Evolves U k') (hk : k.WellFormed) :
    k'.WellFormed ∧ k.Continues k' := by
  induction h with
  | refl => exact ⟨hk, Continues.refl k⟩
  | tail _ hstep ih => exact ⟨hstep.wellFormed ih.1, ih.2.trans (hstep.continues ih.1.numbered)⟩

/-! ## Matching -/

/-- A fresh scope forgets the bindings and nothing else. -/
theorem WellFormed.startMatching (hk : k.WellFormed) : k.startMatching.WellFormed :=
  ⟨hk.grounded, fun hl => by simp [referent?, Env.startMatching] at hl, hk.numbered⟩

/-- The start of matching brings no constants. -/
theorem Over.startMatching (hk : k.Over U) : k.startMatching.Over U :=
  ⟨hk.statuses, fun hl => by simp [referent?, Env.startMatching] at hl⟩

/-- The start of matching extends the environment. -/
theorem extends_startMatching (k : Env) : k.Extends k.startMatching :=
  ⟨fun h _ => h, fun h => h, (Extends.refl k).issued, Nat.le_refl _⟩

end Env

/-- Matching a rule's condition keeps an environment well formed and extends it. -/
theorem Pattern.matchGoal_wellFormed {judge : Judge} {condition goal : Pattern} {k k' : Env}
    (h : Pattern.matchGoal condition goal k judge = .ok (some k')) (hk : k.WellFormed) :
    k'.WellFormed ∧ k.Extends k' ∧ k'.scope = .rule := by
  have hevolves := Pattern.matchGoal_evolves k.over_univ (fun t _ c _ => trivial)
    (fun t _ c _ => trivial) h
  obtain ⟨hk', hcontinues⟩ := hevolves.wellFormed hk.startMatching
  exact ⟨hk', k.extends_startMatching.trans hcontinues.toExtends, hcontinues.scope⟩

/-- Matching a rule's condition brings no constant from elsewhere. -/
theorem Pattern.over_of_matchGoal {U : Constant → Prop} {judge : Judge} {condition goal : Pattern}
    {k k' : Env} (hk : k.Over U) (hc : Pattern.Each (Term.Over U) condition)
    (hg : Pattern.Each (Term.Over U) goal)
    (h : Pattern.matchGoal condition goal k judge = .ok (some k')) : k'.Over U :=
  (Pattern.matchGoal_evolves hk.startMatching hc hg h).over hk.startMatching

/-- Flattening a phrase keeps an environment well formed and continues it. -/
theorem Expr.flattenPhrase_wellFormed {es : List Expr} {k : Env} {x : FlatPhrase}
    (h : Expr.flattenPhrase es k = .ok x) (hk : k.WellFormed) :
    x.env.WellFormed ∧ k.Continues x.env :=
  (Expr.flattenAll_evolves (U := fun _ => True) h).wellFormed hk

end Deduction
