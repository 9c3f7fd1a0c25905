import Deduction.Proofs.Definite

/-!
# Traces

A trace says how a goal was solved: which side of each disjunction was taken, and which rule
was applied to each pattern. In a given environment a goal is solved along a trace in one way
at most, and that solution has a derivation. The goals in question have no negation and no host
goals; their calls are made in the scope of a rule.
-/

namespace Deduction

/-- The choices made on the way to a solution, in the shape of the goal. -/
inductive Trace where
  | leaf
  | pair (first second : Trace)
  | left (trace : Trace)
  | right (trace : Trace)
  /-- The rule at the index was applied, and its body was solved along the trace. -/
  | rule (index : Nat) (body : Trace)
  | call (trace : Trace)

/-- Solves the definitions of a prelude one by one, and then the goal. -/
def Prelude.ahead : Prelude → Goal → Goal
  | empty, p => p
  | define t es, p => .and (.apply (t.definedBy es)) p
  | both a b, p => a.ahead (b.ahead p)

namespace Program

/-- Along the trace the goal is solved in an environment, which leads to another one. -/
inductive Runs (program : Program) : Trace → Goal → Env → Env → Prop
  | truth {k : Env} : Runs program .leaf .truth k k
  | and {a b : Trace} {p q : Goal} {k k₁ k' : Env} (hp : Runs program a p k k₁)
      (hq : Runs program b q k₁ k') : Runs program (.pair a b) (.and p q) k k'
  | orLeft {a : Trace} {p q : Goal} {k k' : Env} (hp : Runs program a p k k') :
      Runs program (.left a) (.or p q) k k'
  | orRight {a : Trace} {p q : Goal} {k k' : Env} (hq : Runs program a q k k') :
      Runs program (.right a) (.or p q) k k'
  | apply {n : Nat} {a : Trace} {r : Rule} {g : Pattern} {k k₁ k₂ k' : Env}
      (hr : program[n]? = some r) (hm : Pattern.matchGoal r.condition g k = .ok (some k₁))
      (hb : Runs program a r.body k₁ k₂) (hk : k₂.restore k = .ok k') :
      Runs program (.rule n a) (.apply g) k k'
  | call {a : Trace} {es : List Expr} {x : FlatPhrase} {k k' : Env}
      (hx : Expr.flattenPhrase es k = .ok x)
      (hg : Runs program a (x.prelude.ahead (.apply x.terms)) x.env k') :
      Runs program (.call a) (.call es) k k'

variable {program : Program} {T : Trace} {p : Goal} {k k' : Env}

/-- A conjunction is solved along pairs of traces. -/
theorem runs_and_iff {q : Goal} :
    program.Runs T (.and p q) k k' ↔
      ∃ a b k₁, T = .pair a b ∧ program.Runs a p k k₁ ∧ program.Runs b q k₁ k' := by
  constructor
  · intro h
    cases h with
    | and hp hq => exact ⟨_, _, _, rfl, hp, hq⟩
  · rintro ⟨a, b, k₁, rfl, hp, hq⟩
    exact .and hp hq

/-- A disjunction is solved along a trace of either side. -/
theorem runs_or_iff {q : Goal} : program.Runs T (.or p q) k k' ↔
    (∃ a, T = .left a ∧ program.Runs a p k k') ∨ ∃ b, T = .right b ∧ program.Runs b q k k' := by
  constructor
  · intro h
    cases h with
    | orLeft ha => exact Or.inl ⟨_, rfl, ha⟩
    | orRight hb => exact Or.inr ⟨_, rfl, hb⟩
  · rintro (⟨a, rfl, ha⟩ | ⟨b, rfl, hb⟩)
    · exact .orLeft ha
    · exact .orRight hb

/-- A pattern is solved by a rule that matches it and by a way back from its body. -/
theorem runs_apply_iff {g : Pattern} : program.Runs T (.apply g) k k' ↔
    ∃ (n : Nat) (m : Match) (a : Trace), T = .rule n a ∧ program[n]? = some m.rule ∧
      Pattern.matchGoal m.rule.condition g k = .ok (some m.env) ∧
      ∃ k₂, program.Runs a m.rule.body m.env k₂ ∧ k₂.restore k = .ok k' := by
  constructor
  · intro h
    cases h with
    | apply hr hm hb hk => exact ⟨_, ⟨_, _⟩, _, rfl, hr, hm, _, hb, hk⟩
  · rintro ⟨n, ⟨r, k₁⟩, a, rfl, hr, hm, k₂, hb, hk⟩
    exact .apply hr hm hb hk

/-- A call is solved as what it is turned into. -/
theorem runs_call_iff {es : List Expr} {x : FlatPhrase} (hx : Expr.flattenPhrase es k = .ok x) :
    program.Runs T (.call es) k k' ↔
      ∃ a, T = .call a ∧ program.Runs a (x.prelude.ahead (.apply x.terms)) x.env k' := by
  constructor
  · intro h
    cases h with
    | call hx' ha =>
      obtain rfl := Except.ok.inj (hx.symm.trans hx')
      exact ⟨_, rfl, ha⟩
  · rintro ⟨a, rfl, ha⟩
    exact .call hx ha

/-- A trace leads to one solution at most. -/
theorem Runs.unique {k'' : Env} (h : program.Runs T p k k') (h' : program.Runs T p k k'') :
    k' = k'' := by
  induction h generalizing k'' with
  | truth => cases h'; rfl
  | and _ _ ihp ihq =>
    cases h' with
    | and hp' hq' =>
      obtain rfl := ihp hp'
      exact ihq hq'
  | orLeft _ ih => cases h' with | orLeft h' => exact ih h'
  | orRight _ ih => cases h' with | orRight h' => exact ih h'
  | apply hr hm _ hk ih =>
    cases h' with
    | apply hr' hm' hb' hk' =>
      obtain rfl := Option.some.inj (hr.symm.trans hr')
      obtain rfl := Option.some.inj (Except.ok.inj (hm.symm.trans hm'))
      obtain rfl := ih hb'
      exact Except.ok.inj (hk.symm.trans hk')
  | call hx _ ih =>
    cases h' with
    | call hx' hg' =>
      obtain rfl := Except.ok.inj (hx.symm.trans hx')
      exact ih hg'

private theorem solves_of_ahead {prelude : Prelude} {q : Goal}
    (h : program.Solves (prelude.ahead q) k k') :
    program.Solves (.and prelude.toGoal q) k k' := by
  induction prelude generalizing q k k' with
  | empty => exact .and .truth h
  | define t es => exact h
  | both a b iha ihb =>
    cases iha h with
    | and ha hrest =>
      cases ihb hrest with
      | and hb hq => exact .and (.and ha hb) hq

/-- Forgetting the trace leaves a derivation of the solution. -/
theorem Runs.solves (h : program.Runs T p k k') : program.Solves p k k' := by
  induction h with
  | truth => exact .truth
  | and _ _ ihp ihq => exact .and ihp ihq
  | orLeft _ ih => exact .orLeft ih
  | orRight _ ih => exact .orRight ih
  | apply hr hm _ hk ih => exact .apply (List.mem_of_getElem? hr) hm ih hk
  | call hx _ ih => exact .call hx (solves_of_ahead ih)

end Program

/-! ## Goals that are solved along traces -/

/-- A call in the scope of a rule takes the variable for the rule's own: it is written by name,
or it is bound. -/
def Env.Owns (k : Env) (v : Variable) : Prop := v.IsIssued → ∃ r, k.referent? v = some r

/-- A goal without negation and host goals as it is met in the scope of a rule. -/
def Goal.Positive (k : Env) : Goal → Prop
  | truth | falsity => True
  | and p q | or p q => p.Positive k ∧ q.Positive k
  | apply g => Pattern.Each (Term.Within Constant.IsStable k) g
  | call es => k.scope = .rule ∧ Expr.EachOf (Term.Over Constant.IsStable) es ∧
      Expr.EachOf (Term.Vars k.Owns) es
  | not _ | host _ => False

namespace Goal

variable {p : Goal} {k k' : Env}

/-- A goal stays positive when its environment is continued. -/
theorem Positive.mono (h : p.Positive k) (hk : k.Continues k') : p.Positive k' := by
  induction p with
  | truth => trivial
  | falsity => trivial
  | and p q ihp ihq => exact ⟨ihp h.1, ihq h.2⟩
  | or p q ihp ihq => exact ⟨ihp h.1, ihq h.2⟩
  | not p _ => exact h.elim
  | apply g => exact fun t ht => (h t ht).mono hk.toExtends
  | call es =>
    refine ⟨hk.scope.trans h.1, h.2.1, h.2.2.mono fun t ht v hv hissued => ?_⟩
    obtain ⟨r, hr⟩ := ht v hv hissued
    exact ⟨r, hk.bindings hr⟩
  | host g => exact h

/-- A positive goal is ready to be solved. -/
theorem Positive.ready (h : p.Positive k) : p.Ready Constant.IsStable k := by
  induction p with
  | truth => trivial
  | falsity => trivial
  | and p q ihp ihq => exact ⟨ihp h.1, ihq h.2⟩
  | or p q ihp ihq => exact ⟨ihp h.1, ihq h.2⟩
  | not p _ => exact h.elim
  | apply g => exact h
  | call es => exact ⟨h.2.1, fun hs => by rw [h.1] at hs; cases hs⟩
  | host g => exact h

/-- A definite goal is positive. -/
theorem Definite.positive (h : p.Definite k) : p.Positive k := by
  induction p with
  | truth => trivial
  | falsity => trivial
  | and p q ihp ihq => exact ⟨ihp h.1, ihq h.2⟩
  | or p q ihp ihq => exact ⟨ihp h.1, ihq h.2⟩
  | not p _ => exact h.elim
  | apply g => exact h
  | call es => exact ⟨h.1, h.2.1, h.2.2.mono fun t ht v hv hissued => absurd hissued (ht v hv)⟩
  | host g => exact h

/-- A call of a positive goal can be flattened. -/
theorem Positive.exists_flat {es : List Expr} (h : (Goal.call es).Positive k)
    (hk : k.WellFormed) : ∃ x, Expr.flattenPhrase es k = .ok x := by
  refine Expr.flattenAll_eq_ok .empty hk fun hs => ?_
  rw [h.1] at hs
  cases hs

end Goal

/-- A positive goal stays so with a prelude ahead of it. -/
theorem Prelude.positive_ahead {prelude : Prelude} {k : Env} {q : Goal}
    (h : prelude.Each (Term.Within Constant.IsStable k)) (hq : q.Positive k) :
    (prelude.ahead q).Positive k := by
  induction prelude generalizing q with
  | empty => exact hq
  | define t es => exact ⟨each_definedBy (Term.within_keyword _) h, hq⟩
  | both a b iha ihb => exact iha h.1 (ihb h.2 hq)

/-- A call of a positive goal is solved as a positive goal. -/
theorem Expr.positive_flattenPhrase {es : List Expr} {k : Env} {x : FlatPhrase}
    (h : (Goal.call es).Positive k) (hk : k.WellFormed) (hU : k.Over Constant.IsStable)
    (hx : Expr.flattenPhrase es k = .ok x) :
    x.env.WellFormed ∧ x.env.Over Constant.IsStable ∧
      (x.prelude.ahead (.apply x.terms)).Positive x.env := by
  obtain ⟨hterms, hprelude⟩ := Expr.flattenPhrase_within hk hU h.2.1 hx
  exact ⟨(Expr.flattenPhrase_wellFormed hx hk).1, (Expr.flattenAll_evolves hx).over hU,
    Prelude.positive_ahead hprelude hterms⟩

/-- Solving a positive goal along a trace keeps the environment in order. -/
theorem Program.Runs.of_positive {program : Program} {T : Trace} {p : Goal} {k k' : Env}
    (h : program.Runs T p k k') (hpure : program.IsPure)
    (hstable : program.Each (Term.Over Constant.IsStable)) (hp : p.Positive k)
    (hk : k.WellFormed) (hU : k.Over Constant.IsStable) :
    k'.WellFormed ∧ k'.Over Constant.IsStable ∧ k.Continues k' :=
  h.solves.of_ready hpure.callsOnly hstable hp.ready hk hU

end Deduction
