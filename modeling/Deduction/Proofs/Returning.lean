import Deduction.Proofs.Reachable

/-!
# Returning to any scope

The return to an outer environment needs no history. Where the inner environment declares all
outer variables it forgets nothing of them: what they stand for, and which of them stand for the
same, is told as before, and to return once more changes nothing. Where it misses one of them, to
retain each variable would meet a fault; but the comparison of sizes comes first, and between
environments that declare equally many variables the fault is passed over.
-/

namespace Deduction

namespace Env

variable {inner outer k' : Env} {kept : VarMap Status}

/-! ## Forgetting nothing -/

/-- To retain the outer variables once more computes the same statuses. -/
theorem outerStatus_of_retainEach (h : inner.retainEach outer = .ok kept)
    (hk' : k'.statuses = kept) {v : Variable} (hv : outer.declares v = true) :
    k'.outerStatus outer v = inner.outerStatus outer v := by
  subst hk'
  obtain ⟨s, hs, hget⟩ := get?_retainEach_outer h hv
  rw [hs]
  cases s with
  | unresolved => exact outerStatus_of_end hget (by simp)
  | resolved c => exact outerStatus_of_end hget (by simp)
  | linked w =>
    cases hw : outer.declares w with
    | true => exact outerStatus_of_linked_outer hget hw
    | false =>
      have hroot : k'.statuses.get? w = some .unresolved := get?_retainEach_target h hv hs hw
      exact outerStatus_of_linked_inner hget hw (.unresolved hroot)

/-- What was retained is retained again. -/
theorem retainEach_of_retainEach (h : inner.retainEach outer = .ok kept)
    (hk' : k'.statuses = kept) : k'.retainEach outer = .ok kept := by
  obtain ⟨howned, hothers⟩ := retainEach_eq_ok_iff.mp h
  refine retainEach_eq_ok_iff.mpr ⟨fun v hv => ?_, fun v hv s => ?_⟩
  · rw [outerStatus_of_retainEach h hk' hv]
    exact howned v hv
  · rw [hothers v hv s]
    refine and_congr_right fun _ => exists_congr fun u => and_congr_right fun hu => ?_
    rw [outerStatus_of_retainEach h hk' hu]

/-- To return a second time changes nothing. -/
theorem restore_restore (hinner : Grounded inner.statuses)
    (hdeclared : ∀ v, outer.declares v = true → inner.declares v = true)
    (h : inner.restore outer = .ok k') : k'.restore outer = .ok k' := by
  obtain ⟨kept, hkept, rfl⟩ := restore_eq_ok_iff.mp h
  have hgrounded := grounded_retained hinner hkept
  have hcontains : ∀ v, outer.declares v = true → kept.contains v = true :=
    fun v => contains_of_retained hdeclared hkept
  rw [retained_eq_retainEach hinner hdeclared] at hkept
  refine restore_eq_ok_iff.mpr ⟨kept, ?_, ?_⟩
  · rw [retained_eq_retainEach hgrounded hcontains]
    exact retainEach_of_retainEach hkept rfl
  · simp

/-- The return to an environment whose variables are all declared succeeds and forgets nothing of
them: they have the values that they had, and those without a value stand for the same just if
they did. To return once more changes nothing. -/
theorem restore_forgets_nothing (hinner : inner.WellFormed) (houter : outer.WellFormed)
    (hdeclared : ∀ v, outer.declares v = true → inner.declares v = true) :
    ∃ k', inner.restore outer = .ok k' ∧ k'.WellFormed ∧
      (k'.locals = outer.locals ∧ k'.scope = outer.scope ∧ k'.next = max inner.next outer.next) ∧
      (∀ v, outer.declares v = true →
        ∃ value, inner.valueOf v = .ok value ∧ k'.valueOf v = .ok value) ∧
      (∀ v w, outer.declares v = true → outer.declares w = true →
        inner.valueOf v = .ok none → inner.valueOf w = .ok none →
          (k'.Joined v w ↔ inner.Joined v w)) ∧
      k'.restore outer = .ok k' := by
  have hgrounded := hinner.grounded
  obtain ⟨k', h⟩ := restore_eq_ok hgrounded hdeclared
  refine ⟨k', h, wellFormed_restore hinner houter hdeclared h, ?_, fun v hv => ?_,
    fun v w hv hw hvalue _ => ⟨?_, ?_⟩, restore_restore hgrounded hdeclared h⟩
  · obtain ⟨kept, _, rfl⟩ := restore_eq_ok_iff.mp h
    exact ⟨rfl, rfl, rfl⟩
  · obtain ⟨r, hr⟩ := hgrounded v (hdeclared v hv)
    exact ⟨r.value, hr.valueOf_eq, (valueOf_restore hgrounded hdeclared h hv).trans hr.valueOf_eq⟩
  · exact joined_of_restore hgrounded hdeclared h hv hw
  · exact joined_restore hgrounded hdeclared h hv hw hvalue

end Env

namespace Sample

/-- A chain that leaves the named variables twice, another one that joins it from outside, and
one that ends outside in a constant. -/
def weaving : Env where
  statuses := VarMap.empty
    |>.insert (.named "a") (.linked (.temporary "t" 0))
    |>.insert (.temporary "t" 0) (.linked (.named "b"))
    |>.insert (.named "b") (.linked (.temporary "t" 1))
    |>.insert (.temporary "t" 1) .unresolved
    |>.insert (.named "c") (.linked (.temporary "t" 2))
    |>.insert (.temporary "t" 2) (.linked (.temporary "t" 1))
    |>.insert (.named "d") (.linked (.temporary "t" 3))
    |>.insert (.temporary "t" 3) (.resolved (.atom "red"))
  locals := VarMap.empty
  scope := .query
  next := 4

/-- A rule's scope over the same named variables, which has learned something else. -/
def besideWeaving : Env where
  statuses := (VarMap.constant (["a", "b", "c", "d"].map .named) .unresolved).insert (.named "b")
    (.resolved (.atom "blue"))
  locals := VarMap.empty.insert (.named "x") (.var (.named "c"))
  scope := .rule
  next := 7

/-- Three variables are linked to one root, which is kept, and the fourth is resolved. -/
def woven : Env where
  statuses := VarMap.empty
    |>.insert (.named "a") (.linked (.temporary "t" 1))
    |>.insert (.named "b") (.linked (.temporary "t" 1))
    |>.insert (.named "c") (.linked (.temporary "t" 1))
    |>.insert (.named "d") (.resolved (.atom "red"))
    |>.insert (.temporary "t" 1) .unresolved
  locals := VarMap.empty.insert (.named "x") (.var (.named "c"))
  scope := .rule
  next := 7

/-- All that the chains said of the named variables is still there. -/
theorem woven_forgets_nothing :
    weaving.restore besideWeaving = .ok woven ∧ woven.WellFormed ∧
    (∀ v, besideWeaving.declares v = true →
      ∃ value, weaving.valueOf v = .ok value ∧ woven.valueOf v = .ok value) ∧
    (woven.Joined (.named "a") (.named "c") ↔ weaving.Joined (.named "a") (.named "c")) ∧
    woven.restore besideWeaving = .ok woven := by
  have hdeclared : ∀ v, besideWeaving.declares v = true → weaving.declares v = true := by
    have hkeys : ∀ v ∈ besideWeaving.statuses.keys, weaving.declares v = true := by decide
    exact fun v hv => hkeys v (VarMap.mem_keys.mpr hv)
  have hwoven : weaving.restore besideWeaving = .ok woven := by decide
  have hinner : weaving.WellFormed := by decide
  have houter : besideWeaving.WellFormed := by decide
  obtain ⟨k', h, hk', _, hvalues, hjoined, hagain⟩ :=
    Env.restore_forgets_nothing hinner houter hdeclared
  rw [hwoven] at h
  cases h
  exact ⟨hwoven, hk', hvalues,
    hjoined (.named "a") (.named "c") (by decide) (by decide) (by decide) (by decide), hagain⟩

end Sample

namespace Env

variable {inner outer k' : Env}

/-! ## Comparing the sizes first -/

/-- The return that retains each outer variable without a look at the sizes. -/
def restoreEach (inner outer : Env) : Except Fault Env :=
  (inner.retainEach outer).map fun statuses =>
    { statuses
      locals := outer.locals
      scope := outer.scope
      next := max inner.next outer.next }

/-- Between environments of different sizes each variable is retained. -/
theorem restore_of_size_ne (h : inner.statuses.size ≠ outer.statuses.size) :
    inner.restore outer = inner.restoreEach outer := by
  rw [restore, restoreEach, retained, if_neg h]

/-- Between environments of one size all that the inner one knows is retained. -/
theorem restore_of_size_eq (h : inner.statuses.size = outer.statuses.size) :
    inner.restore outer = .ok { inner with
      locals := outer.locals, scope := outer.scope, next := max inner.next outer.next } := by
  rw [restore, retained, if_pos h]
  rfl

/-- Where all outer variables are declared the sizes do not matter. -/
theorem restore_eq_restoreEach (hinner : Grounded inner.statuses)
    (hdeclared : ∀ v, outer.declares v = true → inner.declares v = true) :
    inner.restore outer = inner.restoreEach outer := by
  rw [restore, restoreEach, retained_eq_retainEach hinner hdeclared]

/-- The status of an outer variable is missing only where the variable is not declared. -/
theorem Grounded.outerStatus_eq_error (hinner : Grounded inner.statuses) {v : Variable}
    {f : Fault} (h : inner.outerStatus outer v = .error f) :
    inner.declares v = false ∧ f = .unknownVariable v := by
  cases hv : inner.declares v with
  | true =>
    obtain ⟨s, hs⟩ := hinner.outerStatus_eq_ok outer hv
    rw [h] at hs
    cases hs
  | false =>
    have hnone : inner.statuses.get? v = none := by
      simpa [declares, VarMap.contains] using hv
    rw [outerStatus, status, hnone] at h
    cases h
    exact ⟨rfl, rfl⟩

/-- To retain each variable meets a fault where one of them is not declared. -/
theorem restoreEach_of_missing (hinner : Grounded inner.statuses) {v : Variable}
    (hv : outer.declares v = true) (hmissing : inner.declares v = false) :
    ∃ w, outer.declares w = true ∧ inner.declares w = false ∧
      inner.restoreEach outer = .error (.unknownVariable w) := by
  rw [restoreEach, retainEach]
  cases h : outer.statuses.rebuild (inner.outerStatus outer) with
  | error f =>
    obtain ⟨w, hw, hf⟩ := VarMap.exists_of_rebuild_error h
    obtain ⟨hundeclared, rfl⟩ := hinner.outerStatus_eq_error hf
    exact ⟨w, hw, hundeclared, rfl⟩
  | ok statuses =>
    obtain ⟨s, hs, _⟩ := VarMap.exists_of_rebuild h hv
    rw [outerStatus, status] at hs
    have hnone : inner.statuses.get? v = none := by
      simpa [declares, VarMap.contains] using hmissing
    rw [hnone] at hs
    cases hs

/-- Beside the outer variables the unresolved roots of their chains are declared after the
return. -/
theorem declares_restore_iff (hinner : Grounded inner.statuses)
    (hdeclared : ∀ v, outer.declares v = true → inner.declares v = true)
    (h : inner.restore outer = .ok k') (v : Variable) :
    k'.declares v = true ↔
      outer.declares v = true ∨ ∃ u, outer.declares u = true ∧ inner.root u = .ok ⟨v, none⟩ := by
  obtain ⟨kept, hkept, rfl⟩ := restore_eq_ok_iff.mp h
  constructor
  · intro hv
    cases howned : outer.declares v with
    | true => exact Or.inl rfl
    | false =>
      rw [retained_eq_retainEach hinner hdeclared] at hkept
      obtain ⟨s, hs⟩ := declares_iff.mp hv
      obtain ⟨_, u, hu, hlink⟩ := get?_retainEach_other hkept howned hs
      exact Or.inr ⟨u, hu, root_of_outerStatus_linked hlink howned⟩
  · rintro (hv | ⟨u, hu, hroot⟩)
    · exact contains_of_retained hdeclared hkept hv
    · obtain ⟨r', hr', _, hsame⟩ := ends_retained hkept hu (root_eq_ok_iff.mp hroot)
      obtain rfl := hsame rfl
      exact hr'.ends_last.contains

/-- The return from an environment that arises from a query to any other one. Where all outer
variables are declared, each of them is retained with the unresolved roots of their chains, and
bindings go on to refer to declared variables. Where one of them is not declared, to retain each
variable meets that fault, and so does the return between environments of different sizes; but
between environments of one size it succeeds and does not declare the variable. -/
theorem Reachable.restore_outcome {names : List String}
    (hinner : Reachable (declaring (names.map .named)) inner) (outer : Env) :
    ((∀ v, outer.declares v = true → inner.declares v = true) →
      inner.restore outer = inner.restoreEach outer ∧
      ∃ k', inner.restore outer = .ok k' ∧
        (∀ v, k'.declares v = true ↔
          outer.declares v = true ∨ ∃ u, outer.declares u = true ∧ inner.root u = .ok ⟨v, none⟩) ∧
        ((∀ l v, outer.referent? l = some (.var v) → outer.declares v = true) →
          ∀ l v, k'.referent? l = some (.var v) → k'.declares v = true)) ∧
    ∀ v, outer.declares v = true → inner.declares v = false →
      (∃ w, outer.declares w = true ∧ inner.declares w = false ∧
        inner.restoreEach outer = .error (.unknownVariable w)) ∧
      (inner.statuses.size ≠ outer.statuses.size →
        inner.restore outer = inner.restoreEach outer) ∧
      (inner.statuses.size = outer.statuses.size →
        ∃ k', inner.restore outer = .ok k' ∧ k'.statuses = inner.statuses ∧
          k'.locals = outer.locals ∧ k'.declares v = false) := by
  have hgrounded := (hinner.intact (intact_declaring names)).grounded
  refine ⟨fun hdeclared => ?_, fun v hv hmissing => ⟨restoreEach_of_missing hgrounded hv hmissing,
    restore_of_size_ne, fun hsize => ⟨_, restore_of_size_eq hsize, rfl, rfl, hmissing⟩⟩⟩
  obtain ⟨k', h⟩ := restore_eq_ok hgrounded hdeclared
  have hdeclares := declares_restore_iff hgrounded hdeclared h
  refine ⟨restore_eq_restoreEach hgrounded hdeclared, k', h, hdeclares, fun hreferents l v hl => ?_⟩
  exact (hdeclares v).mpr (Or.inl (hreferents l v ((referent?_restore h l).symm.trans hl)))

end Env

namespace Sample

/-- The scope of a rule that has declared one variable of its own. -/
def sibling (name : String) : Env :=
  ((Env.declaring (["x"].map .named)).startMatching.declareLocal (.named name)).2

/-- Either sibling is reached from the query by one declaration. -/
theorem reachable_sibling (name : String) :
    (Env.declaring (["x"].map .named)).Reachable (sibling name) :=
  .step (.step .start .startMatching) (.declareLocal _)

/-- From one such scope the query is entered again without the rule's variable, and another such
scope without the one that its own binding refers to. -/
theorem sibling_restore_outcome :
    (∃ k', (sibling "a").restore (.declaring (["x"].map .named)) = .ok k' ∧
      k'.declares (.named "x") = true ∧ k'.declares (.renamed "a" 0) = false) ∧
    ∃ k', (sibling "a").restore (sibling "b") = .ok k' ∧
      k'.statuses = (sibling "a").statuses ∧ k'.locals = (sibling "b").locals ∧
      k'.declares (.renamed "b" 0) = false := by
  constructor
  · have hdeclared : ∀ v, (Env.declaring (["x"].map .named)).declares v = true →
        (sibling "a").declares v = true := by
      have hkeys : ∀ v ∈ (Env.declaring (["x"].map .named)).statuses.keys,
          (sibling "a").declares v = true := by decide
      exact fun v hv => hkeys v (VarMap.mem_keys.mpr hv)
    obtain ⟨_, k', h, hdeclares, _⟩ :=
      ((reachable_sibling "a").restore_outcome (.declaring (["x"].map .named))).1 hdeclared
    refine ⟨k', h, (hdeclares _).mpr (Or.inl (by decide)), ?_⟩
    rw [← Bool.not_eq_true, hdeclares]
    rintro (houter | ⟨u, hu, hroot⟩)
    · revert houter
      decide
    · have hkeys : ∀ u ∈ (Env.declaring (["x"].map .named)).statuses.keys,
          (sibling "a").root u ≠ .ok ⟨.renamed "a" 0, none⟩ := by decide
      exact hkeys u (VarMap.mem_keys.mpr hu) hroot
  · exact (((reachable_sibling "a").restore_outcome (sibling "b")).2 (.renamed "b" 0) (by decide)
      (by decide)).2.2 (by decide)

/-- Between the two scopes the sizes agree but not the variables, and the fault that retaining
each variable meets is passed over: the binding that comes back refers to nothing. -/
theorem sibling_restore_ne :
    (Env.declaring (["x"].map .named)).Reachable (sibling "a") ∧
    (Env.declaring (["x"].map .named)).Reachable (sibling "b") ∧
    (sibling "a").restoreEach (sibling "b") = .error (.unknownVariable (.renamed "b" 0)) ∧
    ∃ k', (sibling "a").restore (sibling "b") = .ok k' ∧
      k'.referent? (.named "b") = some (.var (.renamed "b" 0)) ∧
      k'.declares (.renamed "b" 0) = false ∧ k'.declares (.renamed "a" 0) = true := by
  have hsize : (sibling "a").statuses.size = (sibling "b").statuses.size := by decide
  have hrestore := Env.restore_of_size_eq hsize
  exact ⟨reachable_sibling "a", reachable_sibling "b", by decide, _, hrestore, by decide, by decide,
    by decide⟩

end Sample

end Deduction
