import Deduction.Proofs.Lifting

/-!
# Completeness of exhausted searches

A search that was pulled to its end has found every answer: for each way to make the goal
a derivable tuple there is a solution that admits it. A search covers a valuation when all
ways to complete it pass such a solution. Each part of a search covers what it should, by
induction on the depth of the search and, within one depth, on the goal; a search that was
cut completes nothing and covers all.
-/

namespace Deduction

open Search

/-- Whenever the search is pulled to its end, it has given a solution that admits the
values which the declared variables have. -/
def Search.Covers (search : Search Item) (k : Env) (s own : Valuation) : Prop :=
  ∀ items, Completes search items → ∃ k' s', .ok k' ∈ items ∧ Env.Refines own k s k' s'

/-- The given applications cover every valuation that makes their pattern derivable. -/
def Program.Covered (program : Program) (applied : Pattern → Env → Search Item) : Prop :=
  ∀ {g k s own}, (Goal.apply g).Definite k → k.Admits s own →
    (Goal.apply g).Holds program.derivable s own → (applied g k).Covers k s own

namespace Search

variable {k : Env} {s own : Valuation} {search : Search Item}

/-- An environment that the valuation satisfies is covered by itself. -/
theorem covers_one (hk : k.Admits s own) : (one (.ok k)).Covers k s own := by
  intro items hitems
  rw [completes_one hitems]
  exact ⟨k, s, List.mem_singleton_self _, hk.refines⟩

/-- Notes have no say in what a search covers. -/
theorem covers_noted {texts : List String} {later : Unit → Search Item}
    (h : (later ()).Covers k s own) : (noted texts later).Covers k s own :=
  fun items hitems => h items (completes_noted_iff.mp hitems)

/-- Solutions are covered one after the other. -/
theorem covers_under {f : Env → Search Item} (h : search.Covers k s own)
    (hf : ∀ k' s', Env.Refines own k s k' s' → (f k').Covers k' s' own) :
    (search.under f).Covers k s own := by
  intro items hitems
  obtain ⟨first, hfirst, hparts⟩ := completes_bind_mem hitems
  obtain ⟨k₁, s₁, hmem₁, hrefines₁⟩ := h first hfirst
  obtain ⟨part, hpart, hsub⟩ := hparts _ hmem₁
  obtain ⟨k₂, s₂, hmem₂, hrefines₂⟩ := hf k₁ s₁ hrefines₁ part hpart
  exact ⟨k₂, s₂, hsub hmem₂, hrefines₁.trans hrefines₂⟩

/-- However two searches are interleaved, what one of them covers is covered. -/
theorem covers_merge {left right : Unit → Search Item}
    (h : (left ()).Covers k s own ∨ (right ()).Covers k s own) :
    (merge left right).Covers k s own := by
  intro items hitems
  obtain ⟨ls, rs, hl, hr, hperm⟩ := completes_merge hitems
  rcases h with h | h
  · obtain ⟨k', s', hmem, hrefines⟩ := h ls hl
    exact ⟨k', s', hperm.mem_iff.mpr (List.mem_append_left rs hmem), hrefines⟩
  · obtain ⟨k', s', hmem, hrefines⟩ := h rs hr
    exact ⟨k', s', hperm.mem_iff.mpr (List.mem_append_right ls hmem), hrefines⟩

end Search

namespace Program

variable {program : Program} {applied : Pattern → Env → Search Item}

private theorem covers_prelude (happlied : program.Covered applied) {prelude : Prelude} {k : Env}
    {s own : Valuation} (hp : prelude.toGoal.Definite k) (hk : k.Admits s own)
    (h : prelude.toGoal.Holds program.derivable s own) :
    (prelude.explore applied k).Covers k s own := by
  induction prelude generalizing k s with
  | empty => exact covers_one hk
  | define t es => exact happlied hp hk h
  | both p q ihp ihq =>
    refine covers_under (ihp hp.1 hk h.1) fun k' s' hrefines => ?_
    exact ihq (hp.2.mono hrefines.continues) hrefines.admits (h.2.of_agree hp.2 hrefines.agree)

/-- Exploring a definite goal covers what makes the goal true, if the applications do. -/
theorem Covered.explore (happlied : program.Covered applied) (turns : Nat) {p : Goal} {k : Env}
    {s own : Valuation} (hp : p.Definite k) (hk : k.Admits s own)
    (h : p.Holds program.derivable s own) : (p.explore applied turns k).Covers k s own := by
  induction p generalizing k s with
  | truth => exact covers_one hk
  | falsity => exact h.elim
  | and p q ihp ihq =>
    refine covers_under (covers_noted (ihp hp.1 hk h.1)) fun k' s' hrefines => covers_noted ?_
    exact ihq (hp.2.mono hrefines.continues) hrefines.admits (h.2.of_agree hp.2 hrefines.agree)
  | or p q ihp ihq => exact covers_merge (h.imp (ihp hp.1 hk) (ihq hp.2 hk))
  | not p _ => exact h.elim
  | apply g => exact happlied hp hk h
  | call es =>
    obtain ⟨hscope, hes, hnamed⟩ := hp
    obtain ⟨ws, hws, hderivable⟩ := h
    have hempty : Prelude.empty.Each (Term.Within Constant.IsStable k) := trivial
    have hquery : k.scope = .query → Expr.EachOf (Term.Vars fun v => k.declares v = true) es :=
      fun hs => by rw [hscope] at hs; cases hs
    obtain ⟨x, hx⟩ := Expr.flattenAll_eq_ok .empty hk.wellFormed hquery
    obtain ⟨hterms, hprelude⟩ := Expr.flattenAll_within hk.wellFormed hk.stable hes hempty hx
    obtain ⟨s₁, hflat, hdefined, hgoal⟩ :=
      Expr.exists_of_denotesAll hk hscope hes hnamed hempty trivial hx hws
    have hcovers : ((x.prelude.explore applied x.env).under (applied x.terms)).Covers
        x.env s₁ own := by
      refine covers_under (covers_prelude happlied (Prelude.definite_toGoal hprelude) hflat.admits
        (Prelude.holds_toGoal_iff.mpr hdefined)) fun k' s' hrefines => ?_
      have happly : (Goal.apply x.terms).Definite x.env := hterms
      refine happlied (happly.mono hrefines.continues) hrefines.admits ?_
      exact ⟨ws, hgoal.of_agree hterms hrefines.agree, hderivable⟩
    intro items hitems
    rw [Goal.explore_call applied turns hx, Goal.explore_flatPhrase] at hitems
    obtain ⟨k', s', hmem, hrefines⟩ := hcovers items hitems
    exact ⟨k', s', hmem, hflat.trans hrefines⟩
  | host g => exact h.elim

/-- If no rule meets a fault, every rule that matches is selected. -/
theorem mem_select {g : Pattern} {k k' : Env}
    (hok : ∀ r ∈ program, ∃ result, Pattern.matchGoal r.condition g k = .ok result) {r : Rule}
    (hr : r ∈ program) (hm : Pattern.matchGoal r.condition g k = .ok (some k')) :
    .ok ⟨r, k'⟩ ∈ program.select g k := by
  induction program with
  | nil => cases hr
  | cons r' rs ih =>
    have hrest : r ∈ rs → .ok ⟨r, k'⟩ ∈ select rs g k :=
      fun hmem => ih (fun r₁ hr₁ => hok r₁ (List.mem_cons_of_mem r' hr₁)) hmem
    obtain ⟨result, hresult⟩ := hok r' List.mem_cons_self
    rw [select, Rule.matchGoal, hresult]
    rcases List.mem_cons.mp hr with rfl | hr
    · rw [hm] at hresult
      cases hresult
      exact List.mem_cons_self
    · cases result with
      | none => exact hrest hr
      | some k₁ => exact List.mem_cons_of_mem _ (hrest hr)

/-- With stable constants no match meets a fault. -/
theorem matchGoal_eq_ok (hstable : program.Each (Term.Over Constant.IsStable)) {g : Pattern}
    {k : Env} (hk : k.WellFormed) (hU : k.Over Constant.IsStable)
    (hg : Pattern.Each (Term.Within Constant.IsStable k) g) {r : Rule} (hr : r ∈ program) :
    ∃ result, Pattern.matchGoal r.condition g k = .ok result := by
  cases hm : Pattern.matchGoal r.condition g k with
  | ok result => exact ⟨result, rfl⟩
  | error f =>
    obtain ⟨c, d, cause, hc, _, hcd, _⟩ :=
      Pattern.matchGoal_blames hk hU (hstable r hr).1 hg hm
    rw [Constant.IsStable.agrees_eq hc] at hcd
    cases hcd

/-- The return from a rule admits what the end of its body admits. -/
theorem refines_restore {k k₁ k₂ k' : Env} {s s₂ own τ : Valuation}
    (hk : k.Admits s own) (hextends : k.Extends k₁) (hrefines : Env.Refines τ k₁ s k₂ s₂)
    (hrestore : k₂.restore k = .ok k') : Env.Refines own k s k' s₂ := by
  obtain ⟨⟨hk₂, hU₂, hmodels₂⟩, hcontinues, hagree⟩ := hrefines
  have hextends₂ := hextends.trans hcontinues.toExtends
  have hagree₂ : k.Agree s s₂ := fun v hv => hagree v (hextends.declared hv)
  have hmodels := hk.models.of_agree hk.wellFormed hagree₂
  exact {
    admits := {
      wellFormed := Env.wellFormed_restore hk₂ hk.wellFormed (fun v => hextends₂.declared) hrestore
      stable := Env.over_restore hU₂ hk.stable hrestore
      models := ⟨hmodels₂.satisfied.restore hrestore, fun hl =>
        hmodels.bindings ((Env.referent?_restore hrestore _).symm.trans hl)⟩ }
    continues := Env.continues_restore hk.wellFormed hextends₂ hrestore
    agree := hagree₂ }

/-- An instance of a rule that is an instance of the pattern is admitted by the match of the two,
and the body of the rule is definite there. -/
theorem exists_match (hpure : program.IsPure)
    (hstable : program.Each (Term.Over Constant.IsStable)) {r : Rule} (hr : r ∈ program)
    {g : Pattern} {k : Env} {s own τ : Valuation} {ws : Tuple}
    (hg : Pattern.Each (Term.Within Constant.IsStable k) g) (hk : k.Admits s own)
    (hcondition : Pattern.Grounds τ r.condition ws) (hws : Pattern.Grounds s g ws) :
    ∃ k₁, Pattern.matchGoal r.condition g k = .ok (some k₁) ∧ k₁.Admits s τ ∧ k.Extends k₁ ∧
      r.body.Definite k₁ := by
  have hover : Pattern.Each (Term.Over Constant.IsStable) g := fun t ht => (hg t ht).1
  obtain ⟨result, hm⟩ := matchGoal_eq_ok hstable hk.wellFormed hk.stable hg hr
  obtain ⟨k₁, rfl, hmodels₁⟩ :=
    (Pattern.matchGoal_models_iff hk.stable (hstable r hr).1 hover hm s τ).mpr
      ⟨hk.models.satisfied, ws, hcondition, hws⟩
  obtain ⟨hk₁, hU₁, hextends, hdefinite⟩ :=
    hpure.match_wellFormed hstable hr hover hm hk.wellFormed hk.stable
  exact ⟨k₁, hm, ⟨hk₁, hU₁, hmodels₁⟩, hextends, hdefinite⟩

/-- From the end of the body there is a way back, which admits what the end admits. -/
theorem exists_restore {k k₁ k₂ : Env} {s s₂ own τ : Valuation} (hk : k.Admits s own)
    (hextends : k.Extends k₁) (hrefines : Env.Refines τ k₁ s k₂ s₂) :
    ∃ k', k₂.restore k = .ok k' ∧ Env.Refines own k s k' s₂ := by
  have hdeclared : ∀ v, k.declares v = true → k₂.declares v = true :=
    fun v hv => hrefines.continues.declared (hextends.declared hv)
  obtain ⟨k', hrestore⟩ := Env.restore_eq_ok hrefines.admits.wellFormed.grounded hdeclared
  exact ⟨k', hrestore, refines_restore hk hextends hrefines hrestore⟩

/-- At every depth, the applications of a pure program cover what can be derived. -/
theorem covered_applications (hpure : program.IsPure)
    (hstable : program.Each (Term.Over Constant.IsStable)) (depth : Nat) :
    program.Covered (Selector.applications program.select depth) := by
  induction depth with
  | zero =>
    intro g k s own _ _ _ items hitems
    cases hitems
  | succ depth ih =>
    intro g k s own hg hk h items hitems
    obtain ⟨ws, hws, hderivable⟩ := h
    obtain ⟨r, hr, τ, hcondition, hbody⟩ := mem_derivable_iff.mp hderivable
    have hok : ∀ r ∈ program, ∃ result, Pattern.matchGoal r.condition g k = .ok result :=
      fun r hr => matchGoal_eq_ok hstable hk.wellFormed hk.stable hg hr
    -- the instance of the rule is admitted by its match
    obtain ⟨k₁, hm, hadmits, hextends, hdefinite⟩ :=
      exists_match hpure hstable hr hg hk hcondition hws
    have hcovers := ih.explore depth hdefinite hadmits
      ((hpure.bodies r hr).holds_congr hbody)
    -- and so is the solution of the body that admits it, which the search passes
    obtain ⟨matched, hmatched, hparts⟩ := completes_bind_mem hitems
    rw [completes_ofList hmatched] at hparts
    obtain ⟨part, hpart, hsub⟩ := hparts _ (mem_select hok hr hm)
    obtain ⟨solutions, hsolutions, rfl⟩ := completes_map hpart
    obtain ⟨k₂, s₂, hmem, hrefines⟩ := hcovers solutions (completes_noted_iff.mp hsolutions)
    obtain ⟨k', hrestore, hrefines'⟩ := exists_restore hk hextends hrefines
    exact ⟨k', s₂, hsub (List.mem_map.mpr ⟨.ok k₂, hmem, hrestore⟩), hrefines'⟩

end Program

/-- A search for a pattern that has come to its end misses no answer: whenever the pattern,
with some individuals for its holes, is a derivable tuple, some solution is satisfied by the
same values of all variables that were declared. -/
theorem Goal.exists_mem_solve_of_derivable {program : Program} {g : Pattern} {k : Env}
    {depth limit : Nat} {choice : Nat → Bool} (hpure : program.IsPure)
    (hstable : program.Each (Term.Over Constant.IsStable)) (hk : k.WellFormed)
    (hU : k.Over Constant.IsStable) (hg : Pattern.Each (Term.Within Constant.IsStable k) g)
    (hended : ((Goal.apply g).solve program.select depth limit choice k).ended = true)
    {s : Valuation} (hs : k.Satisfied s) {ws : Tuple} (hws : Pattern.Grounds s g ws)
    (hderivable : ws ∈ program.derivable) :
    ∃ k' s', .ok k' ∈ ((Goal.apply g).solve program.select depth limit choice k).items ∧
      k'.Satisfied s' ∧ ∀ v, k.declares v = true → s' v = s v := by
  have hmodels := hs.models_boundValues hU
  obtain ⟨k', s', hmem, hrefines⟩ := Program.covered_applications hpure hstable depth hg
    ⟨hk, hU, hmodels⟩ ⟨ws, hws, hderivable⟩ _ (completes_of_take_ended hended)
  exact ⟨k', s', hmem, hrefines.admits.models.satisfied, hrefines.agree⟩

namespace Sample

/-- The individual that an atom stands for. -/
def person (name : String) : Individual := ⟨.atom name, trivial⟩

/-- A father is derivable as his definition says. -/
theorem father_derivable {father child : String} (h : fatherFact father child ∈ fathers) :
    (person father).definedBy [.individual (person "father"), .individual (person child)] ∈
      fathers.derivable := by
  refine Program.mem_derivable_iff.mpr ⟨_, h, default, ?_, trivial⟩
  exact .cons (.const (g := person father)) (.cons .keyword
    (.cons (.const (g := person "father")) (.cons (.const (g := person child)) .nil)))

/-- That tom is the grandfather of ann follows from two definitions. -/
theorem grandfather_derivable :
    [.individual (person "tom"), .keyword (.named "grandfather-of"),
      .individual (person "ann")] ∈ fathers.derivable := by
  let τ : Valuation := fun v => if v = .named "g" then person "tom" else person "ann"
  have hbob : Expr.Denotes fathers.derivable τ (.phrase [atom "father", written "c"])
      (.individual (person "bob")) := by
    simp only [Expr.DenotesAll, Expr.Denotes, written, atom]
    exact ⟨_, _, rfl, ⟨_, _, rfl, .const (g := person "father"), _, _, rfl, .var, rfl⟩,
      father_derivable (by simp [fathers])⟩
  have htom : Expr.Denotes fathers.derivable τ
      (.phrase [atom "father", .phrase [atom "father", written "c"]])
      (.individual (person "tom")) := by
    rw [Expr.Denotes]
    simp only [Expr.DenotesAll]
    exact ⟨_, _, rfl, ⟨_, _, rfl, .const (g := person "father"), _, _, rfl, hbob, rfl⟩,
      father_derivable (by simp [fathers])⟩
  have hsame : [.individual (person "tom"), .keyword (.named "is"), .individual (person "tom")] ∈
      fathers.derivable :=
    Program.mem_derivable_iff.mpr ⟨_, List.mem_cons_self, fun _ => person "tom",
      .cons .var (.cons .keyword (.cons .var .nil)), trivial⟩
  refine Program.mem_derivable_iff.mpr ⟨grandfatherRule, by simp [fathers], τ,
    .cons .var (.cons .keyword (.cons .var .nil)), _, ?_, hsame⟩
  simp only [Expr.DenotesAll]
  exact ⟨_, _, rfl, .var, _, _, rfl, .keyword, _, _, rfl, htom, rfl⟩

/-- The search for a grandfather comes to its end, and so it has found tom. -/
theorem anyGrandfather_finds_tom :
    ((Goal.apply anyGrandfather).solve fathers.select 2 5 Search.alternate
      (.declaring (["who"].map .named))).ended = true ∧
    ∃ k' s', .ok k' ∈ ((Goal.apply anyGrandfather).solve fathers.select 2 5 Search.alternate
        (.declaring (["who"].map .named))).items ∧
      k'.Satisfied s' ∧ s' (.named "who") = person "tom" := by
  have hended : ((Goal.apply anyGrandfather).solve fathers.select 2 5 Search.alternate
      (.declaring (["who"].map .named))).ended = true := by decide +kernel
  have hs : (Env.declaring (["who"].map .named)).Satisfied fun _ => person "tom" := by
    simp [Env.Satisfied, Env.declaring, VarMap.get?_constant, Status.Allows]
  have hws : Pattern.Grounds (fun _ => person "tom") anyGrandfather
      [.individual (person "tom"), .keyword (.named "grandfather-of"),
        .individual (person "ann")] := .cons .var (.cons .keyword (.cons .hole .nil))
  obtain ⟨k', s', hmem, hs', hagree⟩ := Goal.exists_mem_solve_of_derivable isPure_fathers
    stable_fathers (Env.wellFormed_declaring ["who"]) (Env.over_declaring _ _)
    anyGrandfather_within hended hs hws grandfather_derivable
  exact ⟨hended, k', s', hmem, hs', hagree (.named "who") (by decide)⟩

end Sample

end Deduction
