import Deduction.Proofs.Definite
import Deduction.Proofs.MostGeneral

/-!
# Soundness

Every solution of a goal makes the goal true: whatever its variables stand for, as long as
the solution allows it, the goal's tuple is derivable. The proof is by induction on
the derivation of the solution. A rule's own variables are read off the bindings at the end
of its body, a phrase is read off its temporary, and the return from the rule is undone by
choosing values for the variables that it dropped.
-/

namespace Deduction

namespace Env

variable {k k' : Env}

/-- In the scope of a rule a named variable is bound from its first expansion on. -/
theorem referent?_of_expandVariable (hscope : k.scope = .rule) {v : Variable}
    (hv : ¬ v.IsIssued) {r : Referent} (h : k.expandVariable v = .ok (r, k')) :
    k'.referent? v = some r := by
  simp only [expandVariable, hscope, hv, false_and, and_false, if_false, Except.ok.injEq] at h
  cases hl : k.referent? v with
  | some r' =>
    rw [declareLocal_of_bound hl] at h
    cases h
    exact hl
  | none =>
    rw [declareLocal_of_unbound hl] at h
    cases h
    exact VarMap.get?_insert_self _ _ _

end Env

namespace Expr

variable {D : Set Tuple} {s own : Valuation}

mutual

/-- Where the definitions hold, an instance of the flattened expression is an instance of
the expression. -/
theorem denotes_of_flatten : ∀ {e : Expr} {k : Env} {x : FlatTerm}, k.WellFormed →
    k.scope = .rule → e.Each (Term.Vars fun v => ¬ v.IsIssued) → e.flatten k = .ok x →
    x.env.Models s own → x.prelude.Holds D s → ∀ w, x.term.Grounds s w → e.Denotes D own w
  | .term t, k, x, _, hscope, ht, h, hmodels, _, w, hw => by
    rw [Denotes]
    rcases flatten_term_cases h with ⟨v, r, rfl, hv, hx⟩ | ⟨hnot, rfl⟩
    · rw [hx] at hw
      have hvalue := hmodels.bindings (Env.referent?_of_expandVariable hscope (ht v rfl) hv)
      obtain ⟨g, rfl, hg⟩ := Referent.grounds_toTerm hw
      have hown : own v = g := Subtype.ext (hvalue.trans hg.symm)
      rw [← hown]
      exact .var
    · exact hw.congr fun v hv => absurd hv (hnot v)
  | .phrase es, k, x, hk, hscope, hes, h, hmodels, hprelude, w, hw => by
    obtain ⟨y, hy, rfl⟩ := flatten_phrase_cases h
    obtain ⟨hy', _⟩ := (flattenAll_evolves (U := fun _ => True) hy).wellFormed hk
    have hissued : Env.Update (fun _ => True) y.env (y.env.issueTemporary phraseStem).2 := .issued
    have hmodels' := hmodels.of_continues (hissued.continues hy'.numbered)
    obtain ⟨hprelude', ws, hterms, hdefined⟩ := Prelude.holds_conj_iff.mp hprelude
    obtain ⟨_, hall⟩ := denotesAll_of_flattenAll hk hscope hes hy hmodels' hprelude'
    rw [Denotes]
    exact ⟨_, ws, Term.grounds_var_iff.mp hw, hall ws hterms, hdefined⟩

/-- If the prelude of listed expressions holds, they denote what their terms ground to. -/
theorem denotesAll_of_flattenAll : ∀ {es : List Expr} {before : Prelude} {k : Env}
    {x : FlatPhrase}, k.WellFormed → k.scope = .rule →
    EachOf (Term.Vars fun v => ¬ v.IsIssued) es → flattenAll es before k = .ok x →
    x.env.Models s own → x.prelude.Holds D s →
    before.Holds D s ∧ ∀ ws, Pattern.Grounds s x.terms ws → DenotesAll D own es ws
  | [], before, k, x, _, _, _, h, _, hprelude => by
    rw [flattenAll] at h
    cases h
    refine ⟨hprelude, fun ws hws => ?_⟩
    cases hws
    rw [DenotesAll]
  | e :: es, before, k, x, hk, hscope, hes, h, hmodels, hprelude => by
    obtain ⟨y, z, hy, hz, rfl⟩ := flattenAll_cons_cases h
    obtain ⟨hy', hfirst⟩ := (flatten_evolves (U := fun _ => True) hy).wellFormed hk
    obtain ⟨_, hrest⟩ := (flattenAll_evolves (U := fun _ => True) hz).wellFormed hy'
    obtain ⟨hconj, hall⟩ := denotesAll_of_flattenAll hy' (hfirst.scope.trans hscope) hes.2 hz
      hmodels hprelude
    obtain ⟨hbefore, hprelude'⟩ := Prelude.holds_conj_iff.mp hconj
    have hmodels' := hmodels.of_continues hrest
    refine ⟨hbefore, fun ws hws => ?_⟩
    obtain _ | ⟨hw, hws⟩ := hws
    have hfirst' := denotes_of_flatten hk hscope hes.1 hy hmodels' hprelude' _ hw
    rw [DenotesAll]
    exact ⟨_, _, rfl, hfirst', hall _ hws⟩

end

end Expr

namespace Program

variable {program : Program}

/-- A definite goal holds under all valuations that its solution allows. -/
theorem Solves.holds {p : Goal} {k k' : Env} (h : program.Solves p k k') (hpure : program.IsPure)
    (hstable : program.Each (Term.Over Constant.IsStable)) (hp : p.Definite k)
    (hk : k.WellFormed) (hU : k.Over Constant.IsStable) {s own : Valuation}
    (hmodels : k'.Models s own) : p.Holds program.derivable s own := by
  induction h generalizing s own with
  | truth => trivial
  | and hsolves₁ hsolves₂ ihp ihq =>
    obtain ⟨hk₁, hU₁, hcontinues₁⟩ := hsolves₁.of_definite hpure hstable hp.1 hk hU
    have hq := hp.2.mono hcontinues₁
    obtain ⟨_, _, hcontinues₂⟩ := hsolves₂.of_definite hpure hstable hq hk₁ hU₁
    exact ⟨ihp hp.1 hk hU (hmodels.of_continues hcontinues₂), ihq hq hk₁ hU₁ hmodels⟩
  | orLeft _ ih => exact Or.inl (ih hp.1 hk hU hmodels)
  | orRight _ ih => exact Or.inr (ih hp.2 hk hU hmodels)
  | not => exact hp.elim
  | @apply g r k k₁ k₂ k' hr hm hsolves hrestore ih =>
    have hg : Pattern.Each (Term.Over Constant.IsStable) g := fun t ht => (hp t ht).1
    obtain ⟨hk₁, hU₁, hextends, hbody⟩ := hpure.match_wellFormed hstable hr hg hm hk hU
    obtain ⟨hk₂, hU₂, hcontinues⟩ := hsolves.of_definite hpure hstable hbody hk₁ hU₁
    -- the return is undone: the dropped variables get the values that their chains tell
    obtain ⟨s₂, hs₂, hagree⟩ := hmodels.satisfied.exists_inner hrestore hk₂ hU₂
      fun hv => hcontinues.declared (hextends.declared hv)
    have hmodels₂ := hs₂.models_boundValues hU₂
    have hholds := ih hbody hk₁ hU₁ hmodels₂
    have hmodels₁ := hmodels₂.of_continues hcontinues
    obtain ⟨_, ws, hcondition, hgoal⟩ :=
      (Pattern.matchGoal_models_iff hU (hstable r hr).1 hg hm s₂ _).mp ⟨k₁, rfl, hmodels₁⟩
    refine ⟨ws, hgoal.of_agree hp hagree.symm, ?_⟩
    exact mem_derivable_iff.mpr ⟨r, hr, _, hcondition, (hpure.bodies r hr).holds_congr hholds⟩
  | @call es k k' x hx hsolves ih =>
    obtain ⟨hscope, hes, hnamed⟩ := hp
    obtain ⟨hkx, _⟩ := Expr.flattenPhrase_wellFormed hx hk
    have hUx := (Expr.flattenAll_evolves hx).over hU
    obtain ⟨hterms, hprelude⟩ := Expr.flattenPhrase_within hk hU hes hx
    have hgoal : (Goal.and x.prelude.toGoal (.apply x.terms)).Definite x.env :=
      ⟨Prelude.definite_toGoal hprelude, hterms⟩
    obtain ⟨_, _, hcontinues⟩ := hsolves.of_definite hpure hstable hgoal hkx hUx
    obtain ⟨hdefined, ws, hws, hderivable⟩ := ih hgoal hkx hUx hmodels
    have hall := (Expr.denotesAll_of_flattenAll hk hscope hnamed hx
      (hmodels.of_continues hcontinues) (Prelude.holds_toGoal_iff.mp hdefined)).2
    exact ⟨ws, hall ws hws, hderivable⟩
  | host => exact hp.elim

end Program

/-- Every solution that comes out of an applied pattern is well formed and satisfiable, and
whatever satisfies it satisfies the environment of the search and makes the pattern, with
some individuals for its holes, a derivable tuple. -/
theorem Goal.derivable_of_mem_solve {program : Program} {g : Pattern} {k k' : Env}
    {depth limit : Nat} {choice : Nat → Bool} (hpure : program.IsPure)
    (hstable : program.Each (Term.Over Constant.IsStable)) (hk : k.WellFormed)
    (hU : k.Over Constant.IsStable) (hg : Pattern.Each (Term.Within Constant.IsStable k) g)
    (h : .ok k' ∈ ((Goal.apply g).solve program.select depth limit choice k).items) :
    k'.WellFormed ∧ (∃ s, k'.Satisfied s) ∧
    ∀ s, k'.Satisfied s → k.Satisfied s ∧
      ∃ ws, Pattern.Grounds s g ws ∧ ws ∈ program.derivable := by
  have hsolves : program.Solves (.apply g) k k' := Program.answers_of_mem_solve h
  obtain ⟨hk', hU', hcontinues⟩ := hsolves.of_definite hpure hstable hg hk hU
  refine ⟨hk', ⟨_, Env.satisfied_settle hk' hU' default⟩, fun s hs => ?_⟩
  exact ⟨hs.of_extends hcontinues.toExtends,
    hsolves.holds hpure hstable hg hk hU (hs.models_boundValues hU')⟩

namespace Sample

/-- The environment that knows who is meant. -/
def whoIsTom : Env where
  statuses := VarMap.empty.insert (.named "who") (.resolved (.atom "tom"))
  locals := VarMap.empty
  scope := .query
  next := 3

/-- Two phrases deep the grandfather is found, and that he is one can be derived. -/
theorem whoIsTom_derivable :
    .ok whoIsTom ∈ ((Goal.apply anyGrandfather).solve fathers.select 2 5 Search.alternate
      (.declaring (["who"].map .named))).items ∧
    (∃ s, whoIsTom.Satisfied s) ∧
    ∀ s, whoIsTom.Satisfied s →
      ∃ ws, Pattern.Grounds s anyGrandfather ws ∧ ws ∈ fathers.derivable := by
  have hmem : .ok whoIsTom ∈ ((Goal.apply anyGrandfather).solve fathers.select 2 5
      Search.alternate (.declaring (["who"].map .named))).items := by decide +kernel
  obtain ⟨_, hsatisfied, hall⟩ := Goal.derivable_of_mem_solve isPure_fathers stable_fathers
    (Env.wellFormed_declaring ["who"]) (Env.over_declaring _ _) anyGrandfather_within hmem
  exact ⟨hmem, hsatisfied, fun s hs => (hall s hs).2⟩

end Sample

end Deduction
