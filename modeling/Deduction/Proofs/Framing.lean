import Deduction.Proofs.InStep
import Deduction.Proofs.Solution

/-!
# Goals in the scope of a rule

A goal of a query can also be solved in the scope of a rule whose own variables are the
query's, each bound to itself. Rules are matched in a scope of their own, so what they find
does not depend on the scope they are applied in, and a call expands every variable to itself
in both scopes. The two searches stay in step, with solutions that know the same.
-/

namespace Deduction

open Search

namespace Env

/-- The environments know the same of the same variables and issue the same numbers, whatever
their scopes and bindings are. -/
structure KnowsAs (k k' : Env) : Prop where
  statuses : k'.statuses = k.statuses
  next : k'.next = k.next

variable {k k' a b inner : Env}

/-- The same is declared where the same is known. -/
theorem KnowsAs.declares_eq (h : k.KnowsAs k') (v : Variable) : k'.declares v = k.declares v := by
  rw [declares, h.statuses, declares]

/-- Matching starts alike where the same is known. -/
theorem KnowsAs.startMatching_eq (h : k.KnowsAs k') : k'.startMatching = k.startMatching := by
  rw [Env.startMatching, Env.startMatching, h.statuses, h.next]

/-- What the return from a scope keeps depends on what is known in the inner one. -/
theorem KnowsAs.restore_eq (h : a.KnowsAs b) (outer : Env) : b.restore outer = a.restore outer := by
  obtain ⟨statuses, locals, scope, next⟩ := a
  obtain ⟨statuses', locals', scope', next'⟩ := b
  obtain ⟨rfl, rfl⟩ : statuses' = statuses ∧ next' = next := ⟨h.statuses, h.next⟩
  rfl

/-- Two outer environments that know the same are returned to in the same way. -/
theorem KnowsAs.concur_restore (h : k.KnowsAs k') (inner : Env) :
    Concur (fun a b => a.KnowsAs b ∧ a.scope = k.scope ∧ b.scope = k'.scope ∧
      b.locals = k'.locals) (inner.restore k) (inner.restore k') := by
  have hretained : inner.retained k' = inner.retained k := by
    obtain ⟨statuses, locals, scope, next⟩ := k
    obtain ⟨statuses', locals', scope', next'⟩ := k'
    obtain rfl : statuses' = statuses := h.statuses
    rfl
  rw [restore, restore, hretained]
  cases inner.retained k with
  | error f => exact .error f
  | ok kept => exact .ok ⟨⟨rfl, by rw [h.next]⟩, rfl, rfl, rfl⟩

end Env

/-! ## Rules are matched in a scope of their own -/

section

variable {program : Program} {k k' : Env}

/-- The same rules are selected where the same is known. -/
theorem Env.KnowsAs.select_eq (h : k.KnowsAs k') (program : Program) (g : Pattern) :
    program.select g k' = program.select g k := by
  have hmatch : ∀ r : Rule, r.matchGoal g k' = r.matchGoal g k := by
    intro r
    rw [Rule.matchGoal, Rule.matchGoal, Pattern.matchGoal, Pattern.matchGoal, h.startMatching_eq]
  induction program with
  | nil => rfl
  | cons r rs ih => rw [Program.select, Program.select, hmatch, ih]

/-- A pattern is applied in step in environments that know the same. -/
theorem Env.KnowsAs.inStep_applications (h : k.KnowsAs k') (depth : Nat) (g : Pattern) :
    InStep (Concur fun a b => a.KnowsAs b ∧ a.scope = k.scope ∧ b.scope = k'.scope ∧
        b.locals = k'.locals)
      (Selector.applications program.select depth g k)
      (Selector.applications program.select depth g k') := by
  cases depth with
  | zero => exact .cut
  | succ depth =>
    rw [Selector.applications, Selector.applications, h.select_eq]
    refine (InStep.refl _).bind fun m m' hm => ?_
    subst hm
    cases m with
    | error f => exact inStep_one (.error f)
    | ok m =>
      refine (InStep.refl _).map fun i i' hi => ?_
      subst hi
      cases i with
      | error f => exact .error f
      | ok inner => exact h.concur_restore inner

end

/-! ## The query's variables as a rule's own -/

namespace Env

/-- The second environment is the first, a query, seen from the scope of a rule in which each
of the listed variables is bound to itself. -/
structure Mirrors (vs : List Variable) (k k' : Env) : Prop extends KnowsAs k k' where
  query : k.scope = .query
  rule : k'.scope = .rule
  declared : ∀ v ∈ vs, k.declares v = true
  own : ∀ v ∈ vs, k'.referent? v = some (.var v)

/-- The scope of a rule whose own variables are the listed ones, each bound to itself. -/
def framed (k : Env) (vs : List Variable) : Env :=
  vs.foldl (fun k v => k.setLocal v (.var v)) k.startMatching

variable {vs : List Variable} {k k' : Env}

private theorem foldl_setLocal (vs : List Variable) (k : Env) :
    k.KnowsAs (vs.foldl (fun k v => k.setLocal v (.var v)) k) ∧
      (vs.foldl (fun k v => k.setLocal v (.var v)) k).scope = k.scope ∧
      ∀ l, (vs.foldl (fun k v => k.setLocal v (.var v)) k).referent? l =
        if l ∈ vs then some (.var l) else k.referent? l := by
  induction vs generalizing k with
  | nil => exact ⟨⟨rfl, rfl⟩, rfl, fun l => by simp⟩
  | cons v vs ih =>
    obtain ⟨⟨hstatuses, hnext⟩, hscope, hreferent⟩ := ih (k.setLocal v (.var v))
    refine ⟨⟨hstatuses, hnext⟩, hscope, fun l => ?_⟩
    have hset : (k.setLocal v (.var v)).referent? l =
        if l = v then some (.var v) else k.referent? l := VarMap.get?_insert _ _ _ _
    rw [List.foldl_cons, hreferent, hset]
    by_cases hlv : l = v <;> by_cases hlvs : l ∈ vs <;> simp [hlv, hlvs]

/-- In the framed scope the listed variables are bound to themselves, and nothing else is bound. -/
theorem referent?_framed (k : Env) (vs : List Variable) (l : Variable) :
    (k.framed vs).referent? l = if l ∈ vs then some (.var l) else none := by
  rw [framed, (foldl_setLocal vs k.startMatching).2.2]
  simp [referent?, startMatching]

/-- The framed scope sees the query as the query is. -/
theorem mirrors_framed (hk : k.scope = .query) (hvs : ∀ v ∈ vs, k.declares v = true) :
    k.Mirrors vs (k.framed vs) := by
  obtain ⟨⟨hstatuses, hnext⟩, hscope, _⟩ := foldl_setLocal vs k.startMatching
  exact ⟨⟨hstatuses, hnext⟩, hk, hscope, hvs, fun v hv => by rw [referent?_framed, if_pos hv]⟩

/-- The framed scope is well formed with the query. -/
theorem wellFormed_framed (hk : k.WellFormed) (hvs : ∀ v ∈ vs, k.declares v = true) :
    (k.framed vs).WellFormed := by
  obtain ⟨⟨hstatuses, hnext⟩, _⟩ := foldl_setLocal vs k.startMatching
  refine ⟨hstatuses ▸ hk.grounded, fun {l v} hl => ?_, fun {v i} hv hi => ?_⟩
  · rw [referent?_framed] at hl
    split at hl
    · rename_i hlvs
      cases hl
      rw [declares, framed, hstatuses]
      exact hvs l hlvs
    · cases hl
  · rw [declares, framed, hstatuses] at hv
    rw [framed, hnext]
    exact hk.numbered hv hi

/-- The framed scope knows no constants but those of the query. -/
theorem over_framed {U : Constant → Prop} (hk : k.Over U) : (k.framed vs).Over U := by
  obtain ⟨⟨hstatuses, _⟩, _⟩ := foldl_setLocal vs k.startMatching
  refine ⟨fun hv => hk.statuses (hstatuses ▸ hv), fun {l c} hl => ?_⟩
  rw [referent?_framed] at hl
  split at hl <;> cases hl

/-- A listed variable is expanded to itself in both scopes. -/
theorem Mirrors.expandVariable (h : k.Mirrors vs k') {v : Variable} (hv : v ∈ vs) :
    k.expandVariable v = .ok (.var v, k) ∧ k'.expandVariable v = .ok (.var v, k') := by
  have hown := h.own v hv
  constructor
  · simp [Env.expandVariable, h.query, h.declared v hv]
  · simp [Env.expandVariable, h.rule, hown, declareLocal_of_bound hown]

/-- Both scopes issue the same temporary. -/
theorem Mirrors.issueTemporary (h : k.Mirrors vs k') (stem : String) :
    (k.issueTemporary stem).1 = (k'.issueTemporary stem).1 ∧
      (k.issueTemporary stem).2.Mirrors vs (k'.issueTemporary stem).2 := by
  refine ⟨by simp [Env.issueTemporary, h.next], ⟨?_, ?_⟩, h.query, h.rule, fun v hv => ?_, h.own⟩
  · simp [Env.issueTemporary, h.statuses, h.next]
  · simp [Env.issueTemporary, h.next]
  · have hdeclared := h.declared v hv
    rw [declares, Env.issueTemporary, VarMap.contains_insert, Bool.or_eq_true]
    exact Or.inr hdeclared

end Env

namespace Expr

variable {vs : List Variable}

mutual

/-- An expression over the listed variables is flattened alike in both scopes. -/
theorem flatten_mirrors : ∀ {e : Expr} {k k' : Env}, k.Mirrors vs k' →
    e.Each (Term.Vars (· ∈ vs)) → ∃ t prelude k₁ k₁', e.flatten k = .ok ⟨t, prelude, k₁⟩ ∧
      e.flatten k' = .ok ⟨t, prelude, k₁'⟩ ∧ k₁.Mirrors vs k₁'
  | .term t, k, k', hk, ht => by
    cases t with
    | var v =>
      obtain ⟨h, h'⟩ := hk.expandVariable (ht v rfl)
      exact ⟨.var v, .empty, k, k', by rw [flatten, h]; rfl, by rw [flatten, h']; rfl, hk⟩
    | keyword a => exact ⟨_, _, k, k', by rw [flatten]; simp, by rw [flatten]; simp, hk⟩
    | const c => exact ⟨_, _, k, k', by rw [flatten]; simp, by rw [flatten]; simp, hk⟩
    | hole => exact ⟨_, _, k, k', by rw [flatten]; simp, by rw [flatten]; simp, hk⟩
  | .phrase es, k, k', hk, hes => by
    obtain ⟨ts, prelude, k₁, k₁', h, h', hk₁⟩ := flattenAll_mirrors .empty hk hes
    obtain ⟨ht, hissued⟩ := hk₁.issueTemporary phraseStem
    refine ⟨.var (k₁.issueTemporary phraseStem).1,
      prelude.conj (.define (k₁.issueTemporary phraseStem).1 ts), _, _, ?_, ?_, hissued⟩
    · rw [flatten, h]
    · rw [flatten, h', ht]

/-- Listed expressions over the listed variables are flattened alike in both scopes. -/
theorem flattenAll_mirrors : ∀ {es : List Expr} (before : Prelude) {k k' : Env},
    k.Mirrors vs k' → EachOf (Term.Vars (· ∈ vs)) es →
    ∃ ts prelude k₁ k₁', flattenAll es before k = .ok ⟨ts, prelude, k₁⟩ ∧
      flattenAll es before k' = .ok ⟨ts, prelude, k₁'⟩ ∧ k₁.Mirrors vs k₁'
  | [], before, k, k', hk, _ => ⟨[], before, k, k', by rw [flattenAll], by rw [flattenAll], hk⟩
  | e :: es, before, k, k', hk, hes => by
    obtain ⟨t, prelude, k₁, k₁', h, h', hk₁⟩ := flatten_mirrors hk hes.1
    obtain ⟨ts, preludes, k₂, k₂', hs, hs', hk₂⟩ :=
      flattenAll_mirrors (before.conj prelude) hk₁ hes.2
    exact ⟨t :: ts, preludes, k₂, k₂', by rw [flattenAll, h]; simp only [hs],
      by rw [flattenAll, h']; simp only [hs'], hk₂⟩

end

end Expr

/-- A prelude has its own shape. -/
theorem Prelude.shaped_refl (p : Prelude) : p.Shaped Eq p := by
  induction p with
  | empty => exact .empty
  | define t es => exact .define rfl
  | both p q ihp ihq => exact .both ihp ihq

namespace Goal

/-- A goal over the listed variables has its own shape. -/
theorem shaped_refl {vs : List Variable} {p : Goal} (hfree : p.HostFree)
    (hp : p.Each (Term.Vars (· ∈ vs))) :
    p.Shaped Eq (fun es es' => es = es' ∧ Expr.EachOf (Term.Vars (· ∈ vs)) es) p := by
  induction p with
  | truth => exact .truth
  | falsity => exact .falsity
  | and p q ihp ihq => exact .and (ihp hfree.1 hp.1) (ihq hfree.2 hp.2)
  | or p q ihp ihq => exact .or (ihp hfree.1 hp.1) (ihq hfree.2 hp.2)
  | not p ih => exact .not (ih hfree hp)
  | apply g => exact .apply rfl
  | call es => exact .call ⟨rfl, hp⟩
  | host g => exact hfree.elim

end Goal

section

variable {program : Program} {vs : List Variable} {k k' : Env}

/-- The application of a rule keeps the two scopes in step. -/
theorem Env.Mirrors.inStep_applications (h : k.Mirrors vs k') (hk : k.WellFormed)
    (hfree : program.HostFree) (depth : Nat) (g : Pattern) :
    InStep (Concur fun a b => a.Mirrors vs b ∧ a.WellFormed)
      (Selector.applications program.select depth g k)
      (Selector.applications program.select depth g k') := by
  refine (h.toKnowsAs.inStep_applications depth g).with_emits.mono ?_
  rintro i j ⟨hij, hi, _⟩
  cases hij with
  | error f => exact .error f
  | @ok a b hab =>
    obtain ⟨hknows, hscope, hscope', hlocals⟩ := hab
    obtain ⟨ha, hcontinues⟩ := Program.continues_of_emits_applications hfree hk hi
    refine .ok ⟨⟨hknows, hscope.trans h.query, hscope'.trans h.rule, ?_, ?_⟩, ha⟩
    · exact fun v hv => hcontinues.declared (h.declared v hv)
    · intro v hv
      rw [Env.referent?, hlocals]
      exact h.own v hv

/-- A goal over the listed variables is explored in step in the query and in the scope of the
rule. -/
theorem Env.Mirrors.inStep_explore (h : k.Mirrors vs k') (hk : k.WellFormed)
    (hfree : program.HostFree) (depth turns : Nat) {p : Goal} (hpfree : p.HostFree)
    (hp : p.Each (Term.Vars (· ∈ vs))) :
    InStep (Concur fun a b => a.Mirrors vs b ∧ a.WellFormed)
      (p.explore (Selector.applications program.select depth) turns k)
      (p.explore (Selector.applications program.select depth) turns k') := by
  have happly : ∀ g g' k k', g = g' → k.Mirrors vs k' ∧ k.WellFormed →
      InStep (Concur fun a b => a.Mirrors vs b ∧ a.WellFormed)
        (Selector.applications program.select depth g k)
        (Selector.applications program.select depth g' k') := by
    rintro g _ k k' rfl ⟨h, hk⟩
    exact h.inStep_applications hk hfree depth g
  refine (Goal.shaped_refl hpfree hp).inStep happly ?_ ⟨h, hk⟩
  rintro es _ k k' ⟨rfl, hes⟩ ⟨h, hk⟩
  obtain ⟨ts, prelude, k₁, k₁', hx, hx', hk₁⟩ := Expr.flattenAll_mirrors .empty h hes
  obtain ⟨hwf, _⟩ := Expr.flattenPhrase_wellFormed hx hk
  rw [Goal.explore_call _ _ hx, Goal.explore_call _ _ hx', Goal.explore_flatPhrase,
    Goal.explore_flatPhrase]
  exact (prelude.shaped_refl.inStep happly ⟨hk₁, hwf⟩).under fun _ _ =>
    happly _ _ _ _ rfl

end

end Deduction
