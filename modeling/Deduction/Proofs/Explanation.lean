import Deduction.Proofs.Completeness
import Deduction.Proofs.Soundness
import Deduction.Proofs.Trace

/-!
# What a trace says

A trace can be read without any environment: it explains why a goal holds under a valuation,
which rule yields the tuple that each pattern stands for, and which rules define the phrases
on the way. Where a goal was solved along a trace the trace explains it under all valuations
that the solution allows, and where a trace explains a goal it can be solved along that trace,
with a solution that admits the valuation. So the solution of a trace is described by what the
trace explains.
-/

namespace Deduction

mutual

/-- The trace explains why the goal holds. Patterns speak of the declared variables, which the
first valuation gives a value, and calls speak of the rule's own variables. -/
inductive Program.Explains (program : Program) :
    Trace → Goal → Valuation → Valuation → Prop
  | truth {s own : Valuation} : Explains program .leaf .truth s own
  | and {a b : Trace} {p q : Goal} {s own : Valuation} (hp : Explains program a p s own)
      (hq : Explains program b q s own) : Explains program (.pair a b) (.and p q) s own
  | orLeft {a : Trace} {p q : Goal} {s own : Valuation} (hp : Explains program a p s own) :
      Explains program (.left a) (.or p q) s own
  | orRight {a : Trace} {p q : Goal} {s own : Valuation} (hq : Explains program a q s own) :
      Explains program (.right a) (.or p q) s own
  | apply {a : Trace} {g : Pattern} {ws : Tuple} {s own : Valuation}
      (hg : Pattern.Grounds s g ws) (ha : Yields program a ws) : Explains program a (.apply g) s own
  | call {a b : Trace} {es : List Expr} {ws : Tuple} {s own : Valuation}
      (hes : ReadsAll program own a es ws b) (hb : Yields program b ws) :
      Explains program (.call a) (.call es) s own

/-- The rule of the trace yields the tuple. -/
inductive Program.Yields (program : Program) : Trace → Tuple → Prop
  | rule {n : Nat} {a : Trace} {r : Rule} {τ : Valuation} {ws : Tuple} (hr : program[n]? = some r)
      (hc : Pattern.Grounds τ r.condition ws) (hb : Explains program a r.body τ τ) :
      Yields program (.rule n a) ws

/-- The word is an instance of the expression. The trace starts with the definitions of the
phrases in it and goes on with the second trace. -/
inductive Program.Reads (program : Program) : Valuation → Trace → Expr → Word → Trace → Prop
  | term {own : Valuation} {a : Trace} {t : Term} {w : Word} (ht : t.Grounds own w) :
      Reads program own a (.term t) w a
  | phrase {own : Valuation} {a b c : Trace} {es : List Expr} {ws : Tuple} {g : Individual}
      (hes : ReadsAll program own a es ws (.pair b c)) (hb : Yields program b (g.definedBy ws)) :
      Reads program own a (.phrase es) (.individual g) c

/-- The tuple is an instance of the listed expressions, which are read from left to right. -/
inductive Program.ReadsAll (program : Program) :
    Valuation → Trace → List Expr → Tuple → Trace → Prop
  | nil {own : Valuation} {a : Trace} : ReadsAll program own a [] [] a
  | cons {own : Valuation} {a b c : Trace} {e : Expr} {es : List Expr} {w : Word} {ws : Tuple}
      (he : Reads program own a e w b) (hes : ReadsAll program own b es ws c) :
      ReadsAll program own a (e :: es) (w :: ws) c

end

/-- The trace starts with the definitions of the prelude and goes on with the second trace. -/
def Prelude.Explained (program : Program) (s : Valuation) : Prelude → Trace → Trace → Prop
  | empty, a, b => a = b
  | define t es, a, b => ∃ d ws, a = .pair d b ∧ Pattern.Grounds s es ws ∧
      program.Yields d ((s t).definedBy ws)
  | both p q, a, b => ∃ c, p.Explained program s a c ∧ q.Explained program s c b

variable {program : Program} {s s' own : Valuation} {k k' : Env}

namespace Prelude

/-- Leaving out empty parts changes no explanation. -/
theorem explained_conj_iff {p q : Prelude} {a b : Trace} :
    (p.conj q).Explained program s a b ↔
      ∃ c, p.Explained program s a c ∧ q.Explained program s c b := by
  cases p <;> cases q <;> simp [conj, Explained]

/-- What explains a goal with definitions ahead of it explains the definitions first. -/
theorem explains_ahead_iff {prelude : Prelude} {q : Goal} {a : Trace} :
    program.Explains a (prelude.ahead q) s own ↔
      ∃ b, prelude.Explained program s a b ∧ program.Explains b q s own := by
  induction prelude generalizing q a with
  | empty => simp [ahead, Explained]
  | define t es =>
    constructor
    · intro h
      cases h with
      | and hdefinition hq =>
        cases hdefinition with
        | apply hg hyields =>
          obtain ⟨ws, hes, rfl⟩ := Pattern.grounds_definedBy_iff.mp hg
          exact ⟨_, ⟨_, ws, rfl, hes, hyields⟩, hq⟩
    · rintro ⟨b, ⟨d, ws, rfl, hes, hyields⟩, hq⟩
      exact .and (.apply (Pattern.grounds_definedBy_iff.mpr ⟨ws, hes, rfl⟩) hyields) hq
  | both p q ihp ihq =>
    simp only [ahead, ihp, ihq, Explained]
    constructor
    · rintro ⟨c, hp, b, hq, hgoal⟩
      exact ⟨b, ⟨c, hp, hq⟩, hgoal⟩
    · rintro ⟨b, ⟨c, hp, hq⟩, hgoal⟩
      exact ⟨c, hp, b, hq, hgoal⟩

/-- What explains a prelude depends on the declared variables only. -/
theorem Explained.of_agree {p : Prelude} {a b : Trace} (h : p.Explained program s a b)
    (hp : p.Each (Term.Within Constant.IsStable k)) (hs : k.Agree s s') :
    p.Explained program s' a b := by
  induction p generalizing a b with
  | empty => exact h
  | define t es =>
    obtain ⟨d, ws, ha, hes, hyields⟩ := h
    refine ⟨d, ws, ha, hes.of_agree hp.2 hs, ?_⟩
    rw [hs t (hp.1.2 t rfl)]
    exact hyields
  | both p q ihp ihq =>
    obtain ⟨c, ha, hb⟩ := h
    exact ⟨c, ihp ha hp.1, ihq hb hp.2⟩

end Prelude

namespace Program

/-- The explanation of a body depends on the rule's own variables only. -/
theorem Explains.of_pure {a : Trace} {p : Goal} (h : program.Explains a p s own) (hp : p.IsPure) :
    program.Explains a p s' own := by
  induction p generalizing a with
  | truth =>
    cases h
    exact .truth
  | falsity => cases h
  | and p q ihp ihq =>
    cases h with
    | and ha hb => exact .and (ihp ha hp.1) (ihq hb hp.2)
  | or p q ihp ihq =>
    cases h with
    | orLeft ha => exact .orLeft (ihp ha hp.1)
    | orRight hb => exact .orRight (ihq hb hp.2)
  | not p _ => exact hp.elim
  | apply g => exact hp.elim
  | call es =>
    cases h with
    | call hes hb => exact .call hes hb
  | host g => exact hp.elim

/-- Whether a trace explains a positive goal depends on the declared variables only. -/
theorem Explains.of_agree {a : Trace} {p : Goal} (h : program.Explains a p s own)
    (hp : p.Positive k) (hs : k.Agree s s') : program.Explains a p s' own := by
  induction p generalizing a with
  | truth =>
    cases h
    exact .truth
  | falsity => cases h
  | and p q ihp ihq =>
    cases h with
    | and ha hb => exact .and (ihp ha hp.1) (ihq hb hp.2)
  | or p q ihp ihq =>
    cases h with
    | orLeft ha => exact .orLeft (ihp ha hp.1)
    | orRight hb => exact .orRight (ihq hb hp.2)
  | not p _ => exact hp.elim
  | apply g =>
    cases h with
    | apply hg ha => exact .apply (hg.of_agree hp hs) ha
  | call es =>
    cases h with
    | call hes hb => exact .call hes hb
  | host g => exact hp.elim

end Program

/-! ## Expressions -/

namespace Env

/-- In the scope of a rule a variable that is its own is taken for that. -/
theorem Owns.expandVariable {v : Variable} (hv : k.Owns v) (hscope : k.scope = .rule) :
    k.expandVariable v = .ok (k.declareLocal v) := by
  have hnot : ¬ (k.referent? v = none ∧ v.IsIssued ∧ k.declares v) := by
    rintro ⟨hnone, hissued, _⟩
    obtain ⟨r, hr⟩ := hv hissued
    rw [hnone] at hr
    cases hr
  simp [Env.expandVariable, hscope, hnot]

/-- A variable that is owned stays so when the environment is continued. -/
theorem Owns.mono {v : Variable} (hv : k.Owns v) (hk : k.Continues k') : k'.Owns v := by
  intro hissued
  obtain ⟨r, hr⟩ := hv hissued
  exact ⟨r, hk.bindings hr⟩

/-- A variable that is declared as the rule's own is bound from then on. -/
theorem referent?_declareLocal (k : Env) (l : Variable) :
    (k.declareLocal l).2.referent? l = some (k.declareLocal l).1 := by
  cases hl : k.referent? l with
  | some r =>
    rw [declareLocal_of_bound hl]
    exact hl
  | none =>
    rw [declareLocal_of_unbound hl]
    exact VarMap.get?_insert_self _ _ _

end Env

namespace Expr

mutual

/-- An instance of a flattened expression is read off the explanation of its definitions. -/
theorem reads_of_flatten : ∀ {e : Expr} {k : Env} {x : FlatTerm} {a b : Trace}, k.WellFormed →
    k.scope = .rule → e.Each (Term.Vars k.Owns) → e.flatten k = .ok x → x.env.Models s own →
    x.prelude.Explained program s a b → ∀ w, x.term.Grounds s w → program.Reads own a e w b
  | .term t, k, x, a, b, _, hscope, ht, h, hmodels, hprelude, w, hw => by
    rcases flatten_term_cases h with ⟨v, r, rfl, hv, hx⟩ | ⟨hnot, rfl⟩
    · rw [hx] at hw hprelude
      obtain rfl : a = b := hprelude
      have hlocal := (ht v rfl).expandVariable hscope
      rw [hv] at hlocal
      have hbound := k.referent?_declareLocal v
      rw [← Except.ok.inj hlocal] at hbound
      obtain ⟨g, rfl, hg⟩ := Referent.grounds_toTerm hw
      have hown : own v = g := Subtype.ext ((hmodels.bindings hbound).trans hg.symm)
      rw [← hown]
      exact .term .var
    · obtain rfl : a = b := hprelude
      exact .term (hw.congr fun v hv => absurd hv (hnot v))
  | .phrase es, k, x, a, b, hk, hscope, hes, h, hmodels, hprelude, w, hw => by
    obtain ⟨y, hy, rfl⟩ := flatten_phrase_cases h
    obtain ⟨hy', _⟩ := (flattenAll_evolves (U := fun _ => True) hy).wellFormed hk
    have hissued : Env.Update (fun _ => True) y.env (y.env.issueTemporary phraseStem).2 := .issued
    have hmodels' := hmodels.of_continues (hissued.continues hy'.numbered)
    obtain ⟨c, hprelude', d, ws, rfl, hterms, hyields⟩ := Prelude.explained_conj_iff.mp hprelude
    obtain ⟨_, rfl, hall⟩ := readsAll_of_flattenAll hk hscope hes hy hmodels' hprelude'
    rw [Term.grounds_var_iff.mp hw]
    exact .phrase (hall ws hterms) hyields

/-- What explains the prelude of listed expressions explains how they read. -/
theorem readsAll_of_flattenAll : ∀ {es : List Expr} {before : Prelude} {k : Env}
    {x : FlatPhrase} {a c : Trace}, k.WellFormed → k.scope = .rule →
    EachOf (Term.Vars k.Owns) es → flattenAll es before k = .ok x → x.env.Models s own →
    x.prelude.Explained program s a c → ∃ b, before.Explained program s a b ∧
      ∀ ws, Pattern.Grounds s x.terms ws → program.ReadsAll own b es ws c
  | [], before, k, x, a, c, _, _, _, h, _, hprelude => by
    rw [flattenAll] at h
    cases h
    refine ⟨c, hprelude, fun ws hws => ?_⟩
    cases hws
    exact .nil
  | e :: es, before, k, x, a, c, hk, hscope, hes, h, hmodels, hprelude => by
    obtain ⟨y, z, hy, hz, rfl⟩ := flattenAll_cons_cases h
    obtain ⟨hy', hfirst⟩ := (flatten_evolves (U := fun _ => True) hy).wellFormed hk
    obtain ⟨_, hrest⟩ := (flattenAll_evolves (U := fun _ => True) hz).wellFormed hy'
    have howns : EachOf (Term.Vars y.env.Owns) es :=
      hes.2.mono fun t ht v hv => (ht v hv).mono hfirst
    obtain ⟨d, hconj, hall⟩ := readsAll_of_flattenAll hy' (hfirst.scope.trans hscope) howns hz
      hmodels hprelude
    obtain ⟨b, hbefore, hprelude'⟩ := Prelude.explained_conj_iff.mp hconj
    have hmodels' := hmodels.of_continues hrest
    refine ⟨b, hbefore, fun ws hws => ?_⟩
    obtain _ | ⟨hw, hws⟩ := hws
    exact .cons (reads_of_flatten hk hscope hes.1 hy hmodels' hprelude' _ hw) (hall _ hws)

end

mutual

/-- What is read of an expression explains the definitions of the flattened expression. -/
theorem exists_of_reads : ∀ {e : Expr} {k : Env} {s : Valuation} {x : FlatTerm} {w : Word}
    {a b : Trace}, k.Admits s own → k.scope = .rule → e.Each (Term.Over Constant.IsStable) →
    e.Each (Term.Vars k.Owns) → e.flatten k = .ok x → program.Reads own a e w b →
    ∃ s', Env.Refines own k s x.env s' ∧ x.prelude.Explained program s' a b ∧
      x.term.Grounds s' w
  | .term t, k, s, x, w, a, b, hk, hscope, _, ht, h, hw => by
    cases hw with
    | term hw =>
      rcases flatten_term_cases h with ⟨v, r, rfl, hv, hx⟩ | ⟨hnot, rfl⟩
      · obtain ⟨s', hrefines, hvalue⟩ := hk.declareLocal v
        have hlocal := (ht v rfl).expandVariable hscope
        rw [hv] at hlocal
        rw [← Except.ok.inj hlocal] at hrefines hvalue
        rw [hx, Term.grounds_var_iff.mp hw]
        exact ⟨s', hrefines, rfl, Referent.grounds_toTerm_iff.mpr hvalue⟩
      · exact ⟨s, hk.refines, rfl, hw.congr fun v hv => absurd hv (hnot v)⟩
  | .phrase es, k, s, x, w, a, b, hk, hscope, hes, howns, h, hw => by
    cases hw with
    | @phrase _ _ d _ _ ws g hws hdefined =>
      obtain ⟨y, hy, rfl⟩ := flatten_phrase_cases h
      have hempty : Prelude.empty.Each (Term.Within Constant.IsStable k) := trivial
      obtain ⟨s₁, hrefines, hprelude, hterms⟩ :=
        exists_of_readsAll hk hscope hes howns hempty rfl hy hws
      obtain ⟨hterms', hprelude'⟩ := flattenAll_within hk.wellFormed hk.stable hes hempty hy
      obtain ⟨s', hissued, hvalue⟩ := hrefines.admits.issueTemporary phraseStem g
      refine ⟨s', hrefines.trans hissued,
        Prelude.explained_conj_iff.mpr ⟨.pair d b, ?_, d, ws, rfl, ?_, ?_⟩, ?_⟩
      · exact hprelude.of_agree hprelude' hissued.agree
      · exact hterms.of_agree hterms' hissued.agree
      · rw [hvalue]
        exact hdefined
      · rw [Term.grounds_var_iff, hvalue]

/-- Where listed expressions can be read, their prelude can be explained by a refined valuation. -/
theorem exists_of_readsAll : ∀ {es : List Expr} {before : Prelude} {k : Env} {s : Valuation}
    {x : FlatPhrase} {ws : Tuple} {a b c : Trace}, k.Admits s own → k.scope = .rule →
    EachOf (Term.Over Constant.IsStable) es → EachOf (Term.Vars k.Owns) es →
    before.Each (Term.Within Constant.IsStable k) → before.Explained program s a b →
    flattenAll es before k = .ok x → program.ReadsAll own b es ws c →
    ∃ s', Env.Refines own k s x.env s' ∧ x.prelude.Explained program s' a c ∧
      Pattern.Grounds s' x.terms ws
  | [], before, k, s, x, ws, a, b, c, hk, _, _, _, _, hbefore, h, hws => by
    cases hws
    rw [flattenAll] at h
    cases h
    exact ⟨s, hk.refines, hbefore, .nil⟩
  | e :: es, before, k, s, x, ws, a, b, c, hk, hscope, hes, howns, hwithin, hbefore, h, hws => by
    cases hws with
    | cons hu hus =>
      obtain ⟨y, z, hy, hz, rfl⟩ := flattenAll_cons_cases h
      obtain ⟨s₁, hfirst, hprelude, hterm⟩ := exists_of_reads hk hscope hes.1 howns.1 hy hu
      obtain ⟨hterm', hprelude'⟩ := flatten_within hk.wellFormed hk.stable hes.1 hy
      have hwithin' := hwithin.mono fun t ht => ht.mono hfirst.continues.toExtends
      have hbefore' := hbefore.of_agree hwithin hfirst.agree
      have howns' : EachOf (Term.Vars y.env.Owns) es :=
        howns.2.mono fun t ht v hv => (ht v hv).mono hfirst.continues
      obtain ⟨s', hrest, hpreludes, hterms⟩ := exists_of_readsAll hfirst.admits
        (hfirst.continues.scope.trans hscope) hes.2 howns'
        (Prelude.each_conj.mpr ⟨hwithin', hprelude'⟩)
        (Prelude.explained_conj_iff.mpr ⟨_, hbefore', hprelude⟩) hz hus
      exact ⟨s', hfirst.trans hrest, hpreludes,
        .cons (hterm.of_agree hterm' hrest.agree) hterms⟩

end

end Expr

/-! ## Goals -/

namespace Program

section

variable (hpure : program.IsPure) (hstable : program.Each (Term.Over Constant.IsStable))

include hpure hstable

/-- A trace along which a goal was solved explains the goal under all valuations that the
solution allows. -/
theorem Runs.explains {T : Trace} {p : Goal} (h : program.Runs T p k k') (hp : p.Positive k)
    (hk : k.WellFormed) (hU : k.Over Constant.IsStable) (hmodels : k'.Models s own) :
    program.Explains T p s own := by
  induction h generalizing s own with
  | truth => exact .truth
  | and hruns₁ hruns₂ ihp ihq =>
    obtain ⟨hk₁, hU₁, hcontinues₁⟩ := hruns₁.of_positive hpure hstable hp.1 hk hU
    have hq := hp.2.mono hcontinues₁
    obtain ⟨_, _, hcontinues₂⟩ := hruns₂.of_positive hpure hstable hq hk₁ hU₁
    exact .and (ihp hp.1 hk hU (hmodels.of_continues hcontinues₂)) (ihq hq hk₁ hU₁ hmodels)
  | orLeft _ ih => exact .orLeft (ih hp.1 hk hU hmodels)
  | orRight _ ih => exact .orRight (ih hp.2 hk hU hmodels)
  | @apply n a r g k k₁ k₂ k' hr hm hruns hrestore ih =>
    have hmem := List.mem_of_getElem? hr
    have hg : Pattern.Each (Term.Over Constant.IsStable) g := fun t ht => (hp t ht).1
    obtain ⟨hk₁, hU₁, hextends, hbody⟩ := hpure.match_wellFormed hstable hmem hg hm hk hU
    obtain ⟨hk₂, hU₂, hcontinues⟩ := hruns.of_positive hpure hstable hbody.positive hk₁ hU₁
    -- as for soundness, the dropped variables get the values that their chains tell
    obtain ⟨s₂, hs₂, hagree⟩ := hmodels.satisfied.exists_inner hrestore hk₂ hU₂
      fun hv => hcontinues.declared (hextends.declared hv)
    have hmodels₂ := hs₂.models_boundValues hU₂
    have hexplains := ih hbody.positive hk₁ hU₁ hmodels₂
    obtain ⟨_, ws, hcondition, hgoal⟩ :=
      (Pattern.matchGoal_models_iff hU (hstable r hmem).1 hg hm s₂ _).mp
        ⟨k₁, rfl, hmodels₂.of_continues hcontinues⟩
    refine .apply (hgoal.of_agree hp hagree.symm) (.rule hr hcondition ?_)
    exact hexplains.of_pure (hpure.bodies r hmem)
  | @call a es x k k' hx hruns ih =>
    obtain ⟨hkx, hUx, hpx⟩ := Expr.positive_flattenPhrase hp hk hU hx
    obtain ⟨_, _, hcontinues⟩ := hruns.of_positive hpure hstable hpx hkx hUx
    obtain ⟨b, hprelude, hgoal⟩ := Prelude.explains_ahead_iff.mp (ih hpx hkx hUx hmodels)
    cases hgoal with
    | apply hws hyields =>
      obtain ⟨_, rfl, hall⟩ := Expr.readsAll_of_flattenAll hk hp.1 hp.2.2 hx
        (hmodels.of_continues hcontinues) hprelude
      exact .call (hall _ hws) hyields

/-- Along a trace that explains a goal the goal can be solved, with a solution that admits the
values of all declared variables. -/
theorem Explains.exists_runs {T : Trace} {p : Goal} (h : program.Explains T p s own)
    (hp : p.Positive k) (hk : k.Admits s own) :
    ∃ k' s', program.Runs T p k k' ∧ Env.Refines own k s k' s' := by
  induction T generalizing p k s own with
  | leaf =>
    cases h with
    | truth => exact ⟨k, s, .truth, hk.refines⟩
    | apply _ ha => cases ha
  | pair a b iha ihb =>
    cases h with
    | and ha hb =>
      obtain ⟨k₁, s₁, hruns₁, hrefines₁⟩ := iha ha hp.1 hk
      have hq := hp.2.mono hrefines₁.continues
      obtain ⟨k', s', hruns', hrefines'⟩ :=
        ihb (hb.of_agree hp.2 hrefines₁.agree) hq hrefines₁.admits
      exact ⟨k', s', .and hruns₁ hruns', hrefines₁.trans hrefines'⟩
    | apply _ ha => cases ha
  | left a ih =>
    cases h with
    | orLeft ha =>
      obtain ⟨k', s', hruns, hrefines⟩ := ih ha hp.1 hk
      exact ⟨k', s', .orLeft hruns, hrefines⟩
    | apply _ ha => cases ha
  | right a ih =>
    cases h with
    | orRight ha =>
      obtain ⟨k', s', hruns, hrefines⟩ := ih ha hp.2 hk
      exact ⟨k', s', .orRight hruns, hrefines⟩
    | apply _ ha => cases ha
  | rule n a ih =>
    cases h with
    | @apply _ g ws _ _ hws hyields =>
      obtain @⟨_, _, r, τ, _, hr, hcondition, hbody⟩ := hyields
      have hmem := List.mem_of_getElem? hr
      -- the instance of the rule is admitted by its match, and so is the solution of its body
      obtain ⟨k₁, hm, hadmits, hextends, hdefinite⟩ :=
        exists_match hpure hstable hmem hp hk hcondition hws
      obtain ⟨k₂, s₂, hruns, hrefines⟩ := ih (hbody.of_pure (hpure.bodies r hmem))
        hdefinite.positive hadmits
      obtain ⟨k', hrestore, hrefines'⟩ := exists_restore hk hextends hrefines
      exact ⟨k', s₂, .apply hr hm hruns hrestore, hrefines'⟩
  | call a ih =>
    cases h with
    | @call _ b es ws _ _ hes hyields =>
      obtain ⟨x, hx⟩ := hp.exists_flat hk.wellFormed
      obtain ⟨_, _, hpx⟩ := Expr.positive_flattenPhrase hp hk.wellFormed hk.stable hx
      have hempty : Prelude.empty.Each (Term.Within Constant.IsStable k) := trivial
      obtain ⟨s₁, hflat, hprelude, hterms⟩ :=
        Expr.exists_of_readsAll hk hp.1 hp.2.1 hp.2.2 hempty rfl hx hes
      have hexplains : program.Explains a (x.prelude.ahead (.apply x.terms)) s₁ own :=
        Prelude.explains_ahead_iff.mpr ⟨b, hprelude, .apply hterms hyields⟩
      obtain ⟨k', s', hruns, hrefines⟩ := ih hexplains hpx hflat.admits
      exact ⟨k', s', .call hx hruns, hflat.trans hrefines⟩
    | apply _ ha => cases ha

end

end Program

end Deduction
