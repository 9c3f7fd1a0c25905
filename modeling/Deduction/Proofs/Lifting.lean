import Deduction.Proofs.Definite
import Deduction.Proofs.MostGeneral

/-!
# Lifting instances

The steps of a search that issue variables lose no instance. Whatever an expression
denotes, the flattened expression denotes as well, once the issued temporaries and renamed
variables are given the right values; all declared variables keep theirs.
-/

namespace Deduction

namespace Env

/-- A well-formed environment with stable constants, and valuations that satisfy it. -/
structure Admits (k : Env) (s own : Valuation) : Prop where
  wellFormed : k.WellFormed
  stable : k.Over Constant.IsStable
  models : k.Models s own

/-- A continuation that admits the same values for all variables declared before. -/
structure Refines (own : Valuation) (k : Env) (s : Valuation) (k' : Env) (s' : Valuation) :
    Prop where
  admits : k'.Admits s' own
  continues : k.Continues k'
  agree : k.Agree s s'

variable {s s₁ s' own : Valuation} {k k₁ k' : Env}

/-- What a valuation admits is refined by itself. -/
theorem Admits.refines (h : k.Admits s own) : Refines own k s k s := ⟨h, .refl k, .refl k s⟩

/-- Refinements can be composed. -/
theorem Refines.trans (h : Refines own k s k₁ s₁) (h' : Refines own k₁ s₁ k' s') :
    Refines own k s k' s' :=
  ⟨h'.admits, h.continues.trans h'.continues, h.agree.trans h.continues.toExtends h'.agree⟩

/-- An update refines the environment if the values of the declared variables fit it. -/
theorem Admits.refines_update (h : k.Admits s own) (hupdate : Update Constant.IsStable k k')
    (hagree : k.Agree s s') (hmodels : k'.Models s' own) : Refines own k s k' s' := by
  have hk' := hupdate.wellFormed h.wellFormed
  have hcontinues := hupdate.continues h.wellFormed.numbered
  exact ⟨⟨hk', hupdate.over h.stable, hmodels⟩, hcontinues, hagree⟩

/-- A variable under the next number can be declared with any value. -/
theorem Models.insert_next (h : k.Models s own) (hk : k.WellFormed) {u : Variable}
    (hu : u.id? = some k.next) (g : Individual) :
    k.Agree s (Function.update s u g) ∧
      Models (Function.update s u g) own
        { k with statuses := k.statuses.insert u .unresolved, next := k.next + 1 } := by
  have hagree : k.Agree s (Function.update s u g) := by
    intro v hv
    have hne : v ≠ u := by
      rintro rfl
      exact absurd (hk.numbered hv hu) (Nat.lt_irrefl _)
    simp [hne]
  have hmodels := h.of_agree hk hagree
  refine ⟨hagree, fun v st hv => ?_, hmodels.bindings⟩
  rcases VarMap.get?_insert_cases hv with ⟨_, rfl⟩ | hv
  · trivial
  · exact hmodels.satisfied v st hv

/-- A new temporary can stand for any individual. -/
theorem Admits.issueTemporary (h : k.Admits s own) (stem : String) (g : Individual) :
    ∃ s', Refines own k s (k.issueTemporary stem).2 s' ∧ s' (.temporary stem k.next) = g := by
  obtain ⟨hagree, hmodels⟩ :=
    h.models.insert_next h.wellFormed (u := .temporary stem k.next) rfl g
  exact ⟨_, h.refines_update .issued hagree hmodels, by simp⟩

/-- A rule's own variable can be declared with the value it is to have. -/
theorem Admits.declareLocal (h : k.Admits s own) (l : Variable) :
    ∃ s', Refines own k s (k.declareLocal l).2 s' ∧ own l = (k.declareLocal l).1.value s' := by
  cases hl : k.referent? l with
  | some r =>
    rw [declareLocal_of_bound hl]
    exact ⟨s, h.refines, h.models.bindings hl⟩
  | none =>
    obtain ⟨hagree, hmodels⟩ :=
      h.models.insert_next h.wellFormed (u := .renamed l.name k.next) rfl (own l)
    have hself : own l = (Referent.var (.renamed l.name k.next)).value
        (Function.update s (.renamed l.name k.next) (own l)) := by simp [Referent.value]
    have hmodels' : (k.declareLocal l).2.Models
        (Function.update s (.renamed l.name k.next) (own l)) own := by
      rw [declareLocal_of_unbound hl]
      refine (models_setLocal_iff ?_).mpr ⟨hmodels, hself⟩
      exact hl
    refine ⟨_, h.refines_update (.renamed hl) hagree hmodels', ?_⟩
    rw [declareLocal_of_unbound hl]
    exact hself

/-- In the scope of a rule a named variable expands to something with its value. -/
theorem Admits.expandVariable (h : k.Admits s own) (hscope : k.scope = .rule) {v : Variable}
    (hv : ¬ v.IsIssued) {r : Referent} (hexpand : k.expandVariable v = .ok (r, k')) :
    ∃ s', Refines own k s k' s' ∧ own v = r.value s' := by
  simp only [Env.expandVariable, hscope, hv, false_and, and_false, if_false,
    Except.ok.injEq] at hexpand
  have hlocal := h.declareLocal v
  rw [hexpand] at hlocal
  exact hlocal

end Env

namespace Expr

variable {D : Set Tuple} {own : Valuation}

mutual

/-- An instance of an expression is an instance of the flattened expression, in which the
definitions hold. -/
theorem exists_of_denotes : ∀ {e : Expr} {k : Env} {s : Valuation} {x : FlatTerm} {w : Word},
    k.Admits s own → k.scope = .rule → e.Each (Term.Over Constant.IsStable) →
    e.Each (Term.Vars fun v => ¬ v.IsIssued) → e.flatten k = .ok x → e.Denotes D own w →
    ∃ s', Env.Refines own k s x.env s' ∧ x.prelude.Holds D s' ∧ x.term.Grounds s' w
  | .term t, k, s, x, w, hk, hscope, _, ht, h, hw => by
    rw [Denotes] at hw
    rcases flatten_term_cases h with ⟨v, r, rfl, hv, hx⟩ | ⟨hnot, rfl⟩
    · obtain ⟨s', hrefines, hvalue⟩ := hk.expandVariable hscope (ht v rfl) hv
      rw [hx, Term.grounds_var_iff.mp hw]
      exact ⟨s', hrefines, trivial, Referent.grounds_toTerm_iff.mpr hvalue⟩
    · exact ⟨s, hk.refines, trivial, hw.congr fun v hv => absurd hv (hnot v)⟩
  | .phrase es, k, s, x, w, hk, hscope, hes, hnamed, h, hw => by
    rw [Denotes] at hw
    obtain ⟨g, ws, rfl, hws, hdefined⟩ := hw
    obtain ⟨y, hy, rfl⟩ := flatten_phrase_cases h
    have hempty : Prelude.empty.Each (Term.Within Constant.IsStable k) := trivial
    obtain ⟨s₁, hrefines, hprelude, hterms⟩ :=
      exists_of_denotesAll hk hscope hes hnamed hempty trivial hy hws
    obtain ⟨hterms', hprelude'⟩ := flattenAll_within hk.wellFormed hk.stable hes hempty hy
    obtain ⟨s', hissued, hvalue⟩ := hrefines.admits.issueTemporary phraseStem g
    refine ⟨s', hrefines.trans hissued, Prelude.holds_conj_iff.mpr ⟨?_, ws, ?_, ?_⟩, ?_⟩
    · exact hprelude.of_agree hprelude' hissued.agree
    · exact hterms.of_agree hterms' hissued.agree
    · rw [hvalue]
      exact hdefined
    · rw [Term.grounds_var_iff, hvalue]

/-- Where listed expressions denote a tuple, the temporaries of their prelude can be chosen to say
so. -/
theorem exists_of_denotesAll : ∀ {es : List Expr} {before : Prelude} {k : Env} {s : Valuation}
    {x : FlatPhrase} {ws : Tuple}, k.Admits s own → k.scope = .rule →
    EachOf (Term.Over Constant.IsStable) es → EachOf (Term.Vars fun v => ¬ v.IsIssued) es →
    before.Each (Term.Within Constant.IsStable k) → before.Holds D s →
    flattenAll es before k = .ok x → DenotesAll D own es ws →
    ∃ s', Env.Refines own k s x.env s' ∧ x.prelude.Holds D s' ∧ Pattern.Grounds s' x.terms ws
  | [], before, k, s, x, ws, hk, _, _, _, _, hbefore, h, hws => by
    rw [DenotesAll] at hws
    rw [flattenAll] at h
    cases h
    subst hws
    exact ⟨s, hk.refines, hbefore, .nil⟩
  | e :: es, before, k, s, x, ws, hk, hscope, hes, hnamed, hwithin, hbefore, h, hws => by
    rw [DenotesAll] at hws
    obtain ⟨u, us, rfl, hu, hus⟩ := hws
    obtain ⟨y, z, hy, hz, rfl⟩ := flattenAll_cons_cases h
    obtain ⟨s₁, hfirst, hprelude, hterm⟩ := exists_of_denotes hk hscope hes.1 hnamed.1 hy hu
    obtain ⟨hterm', hprelude'⟩ := flatten_within hk.wellFormed hk.stable hes.1 hy
    have hwithin' := hwithin.mono fun t ht => ht.mono hfirst.continues.toExtends
    have hbefore' := hbefore.of_agree hwithin hfirst.agree
    obtain ⟨s', hrest, hpreludes, hterms⟩ := exists_of_denotesAll hfirst.admits
      (hfirst.continues.scope.trans hscope) hes.2 hnamed.2
      (Prelude.each_conj.mpr ⟨hwithin', hprelude'⟩)
      (Prelude.holds_conj_iff.mpr ⟨hbefore', hprelude⟩) hz hus
    exact ⟨s', hfirst.trans hrest, hpreludes, .cons (hterm.of_agree hterm' hrest.agree) hterms⟩

end

end Expr

end Deduction
