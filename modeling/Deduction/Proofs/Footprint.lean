import Deduction.Proofs.Growth

/-!
# What an application leaves behind

The variables that a rule issues are dropped when the rule is left. What remains of them, in
whatever depth they were issued, is an unresolved root that some variable of the caller has been
linked to, and that variable was unresolved before. So an application leaves at most one variable
behind for each variable that it was free to learn about, and none once all of them are known.
-/

namespace Deduction

namespace Env

/-- The declared variables of which nothing is known. -/
def unknowns (k : Env) : List Variable :=
  k.statuses.keys.filter fun v => k.statuses.get? v = some .unresolved

/-- The declared variables that the outer environment does not declare. -/
def leftovers (k outer : Env) : List Variable :=
  k.statuses.keys.filter fun v => !outer.declares v

variable {k k' inner outer : Env} {v : Variable}

/-- The unknowns are the unresolved variables. -/
theorem mem_unknowns_iff : v ∈ k.unknowns ↔ k.statuses.get? v = some .unresolved := by
  rw [unknowns, List.mem_filter, decide_eq_true_eq, and_iff_right_iff_imp]
  exact fun hv => VarMap.mem_keys.mpr (VarMap.contains_iff.mpr ⟨_, hv⟩)

/-- The leftovers are the variables that the outer environment does not declare. -/
theorem mem_leftovers_iff :
    v ∈ k.leftovers outer ↔ k.declares v = true ∧ outer.declares v = false := by
  rw [leftovers, List.mem_filter, VarMap.mem_keys, Bool.not_eq_true']
  rfl

/-- The variable was issued and is unresolved, and a variable that the outer environment knew
nothing of is linked to it. -/
structure SharedRoot (outer k' : Env) (v : Variable) : Prop where
  issued : v.IsIssued
  unresolved : k'.statuses.get? v = some .unresolved
  shared : ∃ u, outer.statuses.get? u = some .unresolved ∧ k'.root u = .ok ⟨v, none⟩

/-- Of the variables declared in an inner scope only shared roots are left. -/
theorem sharedRoot_of_restore (houter : outer.WellFormed) (hinner : Grounded inner.statuses)
    (hextends : outer.Extends inner) (h : inner.restore outer = .ok k')
    (hv : k'.declares v = true) (hnot : outer.declares v = false) : outer.SharedRoot k' v := by
  obtain ⟨kept, hkept, rfl⟩ := restore_eq_ok_iff.mp h
  have hretained := hkept
  rw [retained_eq_retainEach hinner fun w => hextends.declared] at hkept
  obtain ⟨i, hi, _⟩ := hextends.issued (contains_inner_of_retained hretained hv) hnot
  obtain ⟨s, hs⟩ := VarMap.contains_iff.mp hv
  obtain ⟨rfl, u, hu, hstatus⟩ := get?_retainEach_other hkept hnot hs
  obtain ⟨t, ht, hlinked⟩ := get?_retainEach_outer hkept hu
  obtain rfl := Except.ok.inj (hstatus.symm.trans ht)
  have hroot : Ends kept u ⟨v, none⟩ := .linked hlinked (.unresolved hs)
  refine ⟨by simp [Variable.IsIssued, hi], hs, u, ?_, hroot.root_eq⟩
  -- an entry that was known before would be the same now, and lead to an outer variable
  obtain ⟨before, hbefore⟩ := declares_iff.mp hu
  by_cases hunknown : before = .unresolved
  · rw [hbefore, hunknown]
  · have hsame := get?_retained_kept houter.grounded hextends hretained hbefore hunknown
    rw [hlinked] at hsame
    obtain rfl := Option.some.inj hsame
    have hdeclared : outer.declares v = true := houter.grounded.contains_of_linked hbefore
    rw [hdeclared] at hnot
    cases hnot

/-- The variable that the chain of a variable ends in, if it ends. -/
def last? (k : Env) (v : Variable) : Option Variable := (k.root v).toOption.map Root.last

/-- Shared roots are told apart by the variables that lead to them. -/
theorem length_leftovers_le (h : ∀ v ∈ k'.leftovers k, k.SharedRoot k' v) :
    (k'.leftovers k).length ≤ k.unknowns.length := by
  have hnodup : (k'.leftovers k).Nodup := k'.statuses.nodup_keys.filter _
  have hsub : k'.leftovers k ⊆ k.unknowns.filterMap k'.last? := by
    intro v hv
    obtain ⟨u, hu, hroot⟩ := (h v hv).shared
    exact List.mem_filterMap.mpr ⟨u, mem_unknowns_iff.mpr hu, by rw [last?, hroot]; rfl⟩
  calc (k'.leftovers k).length
      ≤ (k.unknowns.filterMap k'.last?).length := (hnodup.subperm hsub).length_le
    _ ≤ k.unknowns.length := List.length_filterMap_le _ _

end Env

/-- A solution of an applied pattern extends its environment by shared roots only. -/
theorem Program.Solves.sharedRoot {program : Program} {g : Pattern} {k k' : Env} {v : Variable}
    (h : program.Solves (.apply g) k k') (hprogram : program.Hosts Host.IsModest)
    (hk : k.WellFormed) (hv : k'.declares v = true) (hnot : k.declares v = false) :
    k.SharedRoot k' v := by
  cases h with
  | apply hr hm hb hrestore =>
    obtain ⟨hk₁, hmatch, _⟩ := Pattern.matchGoal_wellFormed hm hk
    obtain ⟨hk₂, hbody⟩ := hb.continues hprogram (hprogram _ hr) hk₁
    have hextends := hmatch.trans hbody.toExtends
    exact Env.sharedRoot_of_restore hk hk₂.grounded hextends hrestore hv hnot

/-- However deep the rules were nested, a solution of an applied pattern declares all variables
that were declared before, and each further one was issued, is unresolved, and is the root of a
variable that was unresolved before. There are no more of these than there were unresolved
variables, and none at all if every variable declared before is known in the solution. -/
theorem Goal.mem_solve_apply_leftovers {program : Program} {g : Pattern} {k k' : Env}
    {depth limit : Nat} {choice : Nat → Bool} (hprogram : program.Hosts Host.OnlyAdds)
    (hk : k.WellFormed)
    (h : .ok k' ∈ ((Goal.apply g).solve program.select depth limit choice k).items) :
    (∀ v, k.declares v = true → k'.declares v = true) ∧
    (∀ v, k'.declares v = true → k.declares v = false →
      v.IsIssued ∧ k'.statuses.get? v = some .unresolved ∧
        ∃ u, k.statuses.get? u = some .unresolved ∧ k'.root u = .ok ⟨v, none⟩) ∧
    (k'.leftovers k).length ≤ k.unknowns.length ∧
    ((∀ v, k.declares v = true → ∃ c, k'.valueOf v = .ok (some c)) →
      ∀ v, k'.declares v = k.declares v) := by
  have hsolves : program.Solves (.apply g) k k' := Program.answers_of_mem_solve h
  have hmodest : program.Hosts Host.IsModest :=
    fun r hr => (hprogram r hr).mono fun _ => Host.OnlyAdds.isModest
  have hdeclared : ∀ v, k.declares v = true → k'.declares v = true :=
    fun v => (hsolves.continues hmodest trivial hk).2.declared
  have hshared : ∀ v, k'.declares v = true → k.declares v = false → k.SharedRoot k' v :=
    fun v => hsolves.sharedRoot hmodest hk
  refine ⟨hdeclared, fun v hv hnot => ?_, ?_, fun hknown v => ?_⟩
  · obtain ⟨hissued, hunresolved, hroot⟩ := hshared v hv hnot
    exact ⟨hissued, hunresolved, hroot⟩
  · exact Env.length_leftovers_le fun v hv =>
      hshared v (Env.mem_leftovers_iff.mp hv).1 (Env.mem_leftovers_iff.mp hv).2
  · cases hv : k.declares v with
    | true => exact hdeclared v hv
    | false =>
      cases hv' : k'.declares v with
      | false => rfl
      | true =>
        obtain ⟨u, hu, hroot⟩ := (hshared v hv' hv).shared
        obtain ⟨c, hc⟩ := hknown u (Env.declares_iff.mpr ⟨_, hu⟩)
        rw [Env.valueOf, hroot] at hc
        cases hc

namespace Sample

/-- The first of two things becomes something new, by a host goal, and the second is the same. -/
def sharing : Program := [
  .fact [.keyword (.named "same"), .var (.named "u"), .var (.named "u")],
  ⟨[.keyword (.named "share"), .var (.named "a"), .var (.named "b")],
    .and (.host (.script "renew" 0 (.action (.assignFresh (.named "a")))))
      (.call [.term (.keyword (.named "same")), written "b", written "a"])⟩]

/-- A query for two variables, beside one that is known. -/
def twoOfThree : Env :=
  Env.setStatus (.declaring (["x", "y", "z"].map .named)) (.named "z") (.resolved (.atom "red"))

/-- Both variables are linked to the one that the host goal has issued. -/
def shared : Env where
  statuses := (((VarMap.empty.insert (.named "x") (.linked (.temporary "fresh" 0))).insert
    (.named "y") (.linked (.temporary "fresh" 0))).insert (.named "z")
      (.resolved (.atom "red"))).insert (.temporary "fresh" 0) .unresolved
  locals := VarMap.empty
  scope := .query
  next := 1

/-- The query that knows one of three variables is well formed. -/
theorem wellFormed_twoOfThree : twoOfThree.WellFormed := by decide

/-- One issued variable is left behind, the root that the two unknown variables share. -/
theorem shared_leftovers :
    .ok shared ∈ ((Goal.apply [.keyword (.named "share"), .var (.named "x"),
      .var (.named "y")]).solve sharing.select 2 5 Search.alternate twoOfThree).items ∧
    shared.leftovers twoOfThree = [.temporary "fresh" 0] ∧
    twoOfThree.unknowns = [.named "x", .named "y"] ∧
    ((Variable.temporary "fresh" 0).IsIssued ∧
      shared.statuses.get? (.temporary "fresh" 0) = some .unresolved ∧
      ∃ u, twoOfThree.statuses.get? u = some .unresolved ∧
        shared.root u = .ok ⟨.temporary "fresh" 0, none⟩) ∧
    (shared.leftovers twoOfThree).length ≤ twoOfThree.unknowns.length := by
  have hmem : .ok shared ∈ ((Goal.apply [.keyword (.named "share"), .var (.named "x"),
      .var (.named "y")]).solve sharing.select 2 5 Search.alternate twoOfThree).items := by
    decide +kernel
  have hprogram : sharing.Hosts Host.OnlyAdds := by
    intro r hr
    rcases List.mem_cons.mp hr with rfl | hr
    · trivial
    · rw [List.mem_singleton.mp hr]
      exact ⟨Host.onlyAdds_script _ _ _, trivial⟩
  obtain ⟨_, hextra, hlength, _⟩ :=
    Goal.mem_solve_apply_leftovers hprogram wellFormed_twoOfThree hmem
  exact ⟨hmem, by decide, by decide, hextra _ (by decide) (by decide), hlength⟩

end Sample

end Deduction
