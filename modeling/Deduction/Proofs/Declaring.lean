import Deduction.Proofs.Flattening

/-!
# What flattening declares

Flattening only declares variables, each one unresolved and under the next number: a temporary for
a phrase and, in the scope of a rule, a renamed variable for one of the rule's variables that has
nothing to stand for yet. All else in the environment stays as it is. What a variable expands to
was decided at its first occurrence and is the same from then on.
-/

namespace Deduction

open Relation

/-- A map grows by one entry when an absent variable gets a value. -/
theorem VarMap.size_insert_of_absent {α : Type} {m : VarMap α} {v : Variable} (a : α)
    (hv : m.get? v = none) : (m.insert v a).size = m.size + 1 := by
  have hplace : ∀ l : List (Variable × α), find v l = none →
      (place v a l).length = l.length + 1 := by
    intro l hl
    induction l with
    | nil => rfl
    | cons entry rest ih =>
      rw [find] at hl
      split at hl
      · cases hl
      · rename_i hne
        rw [place]
        split
        · rfl
        · rw [List.length_cons, ih hl, List.length_cons]
  exact hplace m.entries hv

namespace Env

/-- One variable declared by flattening. A rule's own variable is renamed if it is unbound, unless
it was issued and is declared. -/
inductive Declaration (k : Env) : Env → Prop
  | temporary (stem : String) : Declaration k (k.issueTemporary stem).2
  | renamed {l : Variable} (hscope : k.scope = .rule) (hl : k.referent? l = none)
      (hown : ¬ (l.IsIssued ∧ k.declares l = true)) : Declaration k (k.declareLocal l).2

/-- A run of declarations. -/
abbrev Declarations : Env → Env → Prop := ReflTransGen Declaration

/-- The second environment keeps all entries of the first one. What it declares beside them is
unresolved and was issued since, one variable for each number. -/
structure OnlyDeclares (k k' : Env) : Prop where
  kept : ∀ {v s}, k.statuses.get? v = some s → k'.statuses.get? v = some s
  added : ∀ {v}, k'.declares v = true → k.declares v = false →
    k'.statuses.get? v = some .unresolved ∧ ∃ i, v.id? = some i ∧ k.next ≤ i ∧ i < k'.next
  size_eq : k'.statuses.size + k.next = k.statuses.size + k'.next
  next_le : k.next ≤ k'.next

/-- The second environment keeps the scope and all bindings of the first one. What it binds beside
them are variables of a rule, each to a variable renamed from it, under a number of its own. Issued
variables that are declared stay unbound. -/
structure OnlyRenames (k k' : Env) : Prop where
  scope : k'.scope = k.scope
  kept : ∀ {l r}, k.referent? l = some r → k'.referent? l = some r
  added : ∀ {l r}, k'.referent? l = some r → k.referent? l = none →
    k.scope = .rule ∧ ∃ i, r = .var (.renamed l.name i) ∧ k.next ≤ i ∧ i < k'.next
  distinct : ∀ {l l' r}, k'.referent? l = some r → k'.referent? l' = some r →
    k.referent? l = none → k.referent? l' = none → l = l'
  unbound : ∀ {v}, v.IsIssued → k.declares v = true → k.referent? v = none →
    k'.referent? v = none

variable {k k₁ k' : Env}

/-- Nothing is declared where nothing changes. -/
theorem OnlyDeclares.refl (k : Env) : k.OnlyDeclares k where
  kept := id
  added h h' := by rw [h] at h'; cases h'
  size_eq := rfl
  next_le := Nat.le_refl _

/-- Declarations after declarations declare only. -/
theorem OnlyDeclares.trans (h : k.OnlyDeclares k₁) (h' : k₁.OnlyDeclares k') :
    k.OnlyDeclares k' where
  kept hv := h'.kept (h.kept hv)
  added {v} hv hnot := by
    cases hv₁ : k₁.declares v with
    | true =>
      obtain ⟨hunresolved, i, hi, hle, hlt⟩ := h.added hv₁ hnot
      exact ⟨h'.kept hunresolved, i, hi, hle, Nat.lt_of_lt_of_le hlt h'.next_le⟩
    | false =>
      obtain ⟨hunresolved, i, hi, hle, hlt⟩ := h'.added hv hv₁
      exact ⟨hunresolved, i, hi, Nat.le_trans h.next_le hle, hlt⟩
  size_eq := by
    have hsize := h.size_eq
    have hsize' := h'.size_eq
    omega
  next_le := Nat.le_trans h.next_le h'.next_le

/-- What was declared stays declared. -/
theorem OnlyDeclares.declared (h : k.OnlyDeclares k') {v : Variable} (hv : k.declares v = true) :
    k'.declares v = true := by
  obtain ⟨s, hs⟩ := declares_iff.mp hv
  exact declares_iff.mpr ⟨s, h.kept hs⟩

/-- A variable that is not issued, or under an earlier number, is declared only if it was. -/
theorem OnlyDeclares.declares_eq (h : k.OnlyDeclares k') {v : Variable}
    (hv : ∀ i ∈ v.id?, i < k.next) : k'.declares v = k.declares v := by
  cases hdeclared : k.declares v with
  | true => exact h.declared hdeclared
  | false =>
    by_contra hnew
    obtain ⟨_, i, hi, hle, _⟩ := h.added (Bool.not_eq_false _ ▸ hnew) hdeclared
    exact absurd (hv i hi) (Nat.not_lt.mpr hle)

/-- Nothing is renamed where nothing changes. -/
theorem OnlyRenames.refl (k : Env) : k.OnlyRenames k where
  scope := rfl
  kept := id
  added h h' := by rw [h] at h'; cases h'
  distinct h _ hnone := by rw [h] at hnone; cases hnone
  unbound _ _ h := h

/-- A binding that was added in two stages was added in one of them. -/
theorem OnlyRenames.trans (hdeclares : k.OnlyDeclares k₁) (hdeclares' : k₁.OnlyDeclares k')
    (h : k.OnlyRenames k₁) (h' : k₁.OnlyRenames k') : k.OnlyRenames k' where
  scope := h'.scope.trans h.scope
  kept hl := h'.kept (h.kept hl)
  added {l r} hl hnone := by
    cases hl₁ : k₁.referent? l with
    | none =>
      obtain ⟨hscope, i, hr, hle, hlt⟩ := h'.added hl hl₁
      exact ⟨h.scope.symm.trans hscope, i, hr, Nat.le_trans hdeclares.next_le hle, hlt⟩
    | some r₁ =>
      obtain rfl : r₁ = r := Option.some.inj ((h'.kept hl₁).symm.trans hl)
      obtain ⟨hscope, i, hr, hle, hlt⟩ := h.added hl₁ hnone
      exact ⟨hscope, i, hr, hle, Nat.lt_of_lt_of_le hlt hdeclares'.next_le⟩
  distinct {l l' r} hl hl' hnone hnone' := by
    cases hl₁ : k₁.referent? l with
    | none =>
      cases hl₁' : k₁.referent? l' with
      | none => exact h'.distinct hl hl' hl₁ hl₁'
      | some r₁ =>
        obtain rfl : r₁ = r := Option.some.inj ((h'.kept hl₁').symm.trans hl')
        obtain ⟨_, i, rfl, hle, _⟩ := h'.added hl hl₁
        obtain ⟨_, j, hj, _, hlt⟩ := h.added hl₁' hnone'
        have hij : i = j := (Variable.renamed.inj (Referent.var.inj hj)).2
        exact absurd hlt (Nat.not_lt.mpr (hij ▸ hle))
    | some r₁ =>
      obtain rfl : r₁ = r := Option.some.inj ((h'.kept hl₁).symm.trans hl)
      cases hl₁' : k₁.referent? l' with
      | none =>
        obtain ⟨_, i, rfl, hle, _⟩ := h'.added hl' hl₁'
        obtain ⟨_, j, hj, _, hlt⟩ := h.added hl₁ hnone
        have hij : i = j := (Variable.renamed.inj (Referent.var.inj hj)).2
        exact absurd hlt (Nat.not_lt.mpr (hij ▸ hle))
      | some r₂ =>
        obtain rfl : r₂ = r₁ := Option.some.inj ((h'.kept hl₁').symm.trans hl')
        exact h.distinct hl₁ hl₁' hnone hnone'
  unbound hissued hv hnone := h'.unbound hissued (hdeclares.declared hv)
    (h.unbound hissued hv hnone)

/-! ## One declaration -/

/-- Declaring a variable under the next number adds one unresolved entry. -/
theorem onlyDeclares_insert_next {locals : VarMap Referent} {v : Variable} (hk : k.Numbered)
    (hv : v.id? = some k.next) :
    k.OnlyDeclares { k with
      statuses := k.statuses.insert v .unresolved, locals := locals, next := k.next + 1 } where
  kept hw := VarMap.get?_insert_of_absent _ (hk.get?_next hv) hw
  added {w} hw hnot := by
    rw [declares, VarMap.contains_insert, Bool.or_eq_true, decide_eq_true_eq] at hw
    rcases hw with rfl | hw
    · exact ⟨VarMap.get?_insert_self _ _ _, k.next, hv, Nat.le_refl _, Nat.lt_succ_self _⟩
    · rw [declares, hw] at hnot
      cases hnot
  size_eq := by
    have hsize := VarMap.size_insert_of_absent .unresolved (hk.get?_next hv)
    simp only [hsize]
    omega
  next_le := Nat.le_succ _

/-- A single declaration leaves all that is known as it was. -/
theorem Declaration.onlyDeclares (h : k.Declaration k') (hk : k.Numbered) :
    k.OnlyDeclares k' := by
  cases h with
  | temporary stem => exact onlyDeclares_insert_next hk rfl
  | renamed _ hl _ =>
    rw [declareLocal_of_unbound hl]
    exact onlyDeclares_insert_next hk rfl

/-- A single declaration binds an own variable at most, to a renamed one. -/
theorem Declaration.onlyRenames (h : k.Declaration k') : k.OnlyRenames k' := by
  cases h with
  | temporary stem =>
    refine ⟨rfl, id, fun hl hnone => ?_, fun hl _ hnone => ?_, fun _ _ hnone => hnone⟩
    · cases hnone.symm.trans hl
    · cases hnone.symm.trans hl
  | @renamed l hscope hl hown =>
    rw [declareLocal_of_unbound hl]
    refine ⟨rfl, fun hl' => VarMap.get?_insert_of_absent _ hl hl', fun {l' r} hl' hnone => ?_,
      fun {l' l'' r} hl' hl'' hnone hnone' => ?_, fun {v} hissued hv hnone => ?_⟩
    · rcases VarMap.get?_insert_cases hl' with ⟨rfl, rfl⟩ | hl'
      · exact ⟨hscope, k.next, rfl, Nat.le_refl _, Nat.lt_succ_self _⟩
      · cases hnone.symm.trans hl'
    · rcases VarMap.get?_insert_cases hl' with ⟨rfl, _⟩ | hl'
      · rcases VarMap.get?_insert_cases hl'' with ⟨rfl, _⟩ | hl''
        · rfl
        · cases hnone'.symm.trans hl''
      · cases hnone.symm.trans hl'
    · have hne : v ≠ l := by
        rintro rfl
        exact hown ⟨hissued, hv⟩
      exact (VarMap.get?_insert_of_ne _ _ hne).trans hnone

/-! ## A run of declarations -/

/-- A declaration is an elementary update. -/
theorem Declaration.update {U : Constant → Prop} (h : k.Declaration k') : Update U k k' := by
  cases h with
  | temporary stem => exact .issued
  | renamed _ hl _ => exact .renamed hl

/-- Declarations keep the numbers of issued variables below the next one. -/
theorem Declarations.numbered (h : k.Declarations k') (hk : k.Numbered) : k'.Numbered := by
  induction h with
  | refl => exact hk
  | tail _ hstep ih =>
    have hupdate : Update (fun _ => True) _ _ := hstep.update
    intro v i hv hi
    exact hupdate.numbered ih hv hi

/-- A run of declarations leaves all that is known as it was. -/
theorem Declarations.onlyDeclares (h : k.Declarations k') (hk : k.Numbered) :
    k.OnlyDeclares k' := by
  induction h with
  | refl => exact .refl k
  | tail hrun hstep ih => exact ih.trans (hstep.onlyDeclares (Declarations.numbered hrun hk))

/-- A run of declarations binds own variables to renamed ones only. -/
theorem Declarations.onlyRenames (h : k.Declarations k') (hk : k.Numbered) :
    k.OnlyRenames k' := by
  induction h with
  | refl => exact .refl k
  | tail hrun hstep ih =>
    have hlast := hstep.onlyDeclares (Declarations.numbered hrun hk)
    exact .trans (Declarations.onlyDeclares hrun hk) hlast ih hstep.onlyRenames

/-! ## What variables expand to -/

/-- The variable expands to the referent, and nothing has to be declared for it. -/
def ExpandsTo (k : Env) (v : Variable) (r : Referent) : Prop := k.expandVariable v = .ok (r, k)

/-- The term that a variable expands to. -/
def expansion (k : Env) (v : Variable) : Term :=
  match k.expandVariable v with
  | .ok (r, _) => r.toTerm
  | .error _ => .var v

/-- What a variable expands to is the term that stands in its place. -/
theorem ExpandsTo.expansion_eq {v : Variable} {r : Referent} (h : k.ExpandsTo v r) :
    k.expansion v = r.toTerm := by
  rw [expansion, h]

/-- Nothing has to be declared for the declared variables of a query, for the bound variables of a
rule, and for issued variables that are declared. -/
theorem expandsTo_iff {v : Variable} {r : Referent} : k.ExpandsTo v r ↔
    k.scope = .query ∧ k.declares v = true ∧ r = .var v ∨
    k.scope = .rule ∧ (k.referent? v = some r ∨
      k.referent? v = none ∧ v.IsIssued ∧ k.declares v = true ∧ r = .var v) := by
  rw [ExpandsTo, expandVariable]
  cases hscope : k.scope with
  | query => by_cases hv : k.declares v = true <;> simp [hv, eq_comm]
  | rule =>
    cases hl : k.referent? v with
    | some p => simp [declareLocal_of_bound hl]
    | none =>
      by_cases hown : v.IsIssued ∧ k.declares v = true
      · simp [hown, eq_comm]
      · -- a renamed variable uses up a number
        have hne : (k.declareLocal v).2 ≠ k := fun heq => by
          have hnext := congrArg Env.next heq
          rw [declareLocal_of_unbound hl] at hnext
          exact Nat.succ_ne_self _ hnext
        have hpair : k.declareLocal v ≠ (r, k) := fun heq => hne (congrArg Prod.snd heq)
        simp only [hown, and_false, if_false, Except.ok.injEq, hpair, false_iff]
        simp only [reduceCtorEq, false_and, true_and, false_or, not_and]
        exact fun hissued hv => absurd ⟨hissued, hv⟩ hown

/-- Expanding a variable declares what it expands to, if need be. -/
theorem expandVariable_declarations {v : Variable} {r : Referent}
    (h : k.expandVariable v = .ok (r, k')) : k.Declarations k' ∧ k'.ExpandsTo v r := by
  have hself : ∀ {p}, k.ExpandsTo v p → k.Declarations k' ∧ k'.ExpandsTo v r := by
    intro p hp
    obtain ⟨rfl, rfl⟩ := Prod.mk.inj (Except.ok.inj (h.symm.trans hp))
    exact ⟨.refl, hp⟩
  cases hscope : k.scope with
  | query =>
    by_cases hv : k.declares v = true
    · exact hself (expandsTo_iff.mpr (Or.inl ⟨hscope, hv, rfl⟩))
    · simp [expandVariable, hscope, hv] at h
  | rule =>
    cases hl : k.referent? v with
    | some p => exact hself (expandsTo_iff.mpr (Or.inr ⟨hscope, Or.inl hl⟩))
    | none =>
      by_cases hown : v.IsIssued ∧ k.declares v = true
      · exact hself (expandsTo_iff.mpr (Or.inr ⟨hscope, Or.inr ⟨hl, hown.1, hown.2, rfl⟩⟩))
      · have hrenamed : k.declareLocal v = (r, k') := by
          simpa [expandVariable, hscope, hl, hown] using h
        obtain rfl : k' = (k.declareLocal v).2 := (congrArg Prod.snd hrenamed).symm
        refine ⟨.single (.renamed hscope hl hown), expandsTo_iff.mpr (Or.inr ⟨?_, Or.inl ?_⟩)⟩
        · rw [declareLocal_of_unbound hl]
          exact hscope
        · rw [declareLocal_of_unbound hl] at hrenamed ⊢
          rw [← (Prod.mk.inj hrenamed).1]
          exact VarMap.get?_insert_self _ _ _

/-- Later declarations leave it at what a variable expands to. -/
theorem ExpandsTo.mono {v : Variable} {r : Referent} (h : k.ExpandsTo v r)
    (hk : k.Declarations k') (hnumbered : k.Numbered) : k'.ExpandsTo v r := by
  have hdeclares := hk.onlyDeclares hnumbered
  have hrenames := hk.onlyRenames hnumbered
  rcases expandsTo_iff.mp h with ⟨hscope, hv, rfl⟩ | ⟨hscope, hl | ⟨hl, hissued, hv, rfl⟩⟩
  · exact expandsTo_iff.mpr (Or.inl ⟨hrenames.scope.trans hscope, hdeclares.declared hv, rfl⟩)
  · exact expandsTo_iff.mpr (Or.inr ⟨hrenames.scope.trans hscope, Or.inl (hrenames.kept hl)⟩)
  · exact expandsTo_iff.mpr (Or.inr ⟨hrenames.scope.trans hscope,
      Or.inr ⟨hrenames.unbound hissued hv hl, hissued, hdeclares.declared hv, rfl⟩⟩)

/-- The first variable of a list that is not declared. -/
def firstUnknown (k : Env) (vs : List Variable) : Option Variable :=
  vs.find? fun v => !k.declares v

/-- The first unknown variable is one of the listed ones and is not declared. -/
theorem firstUnknown_eq_some {vs : List Variable} {v : Variable}
    (h : k.firstUnknown vs = some v) : v ∈ vs ∧ k.declares v = false :=
  ⟨List.mem_of_find?_eq_some h, by simpa using List.find?_some h⟩

/-- Where a listed variable is not declared, there is a first one of that kind. -/
theorem exists_firstUnknown {vs : List Variable} {v : Variable} (hv : v ∈ vs)
    (hnot : k.declares v = false) : ∃ w, k.firstUnknown vs = some w := by
  cases hfirst : k.firstUnknown vs with
  | none =>
    have hdeclared := List.find?_eq_none.mp hfirst v hv
    simp [hnot] at hdeclared
  | some w => exact ⟨w, rfl⟩

/-- Declarations made for one part of a phrase declare nothing for the rest of it. -/
theorem OnlyDeclares.firstUnknown_eq (h : k.OnlyDeclares k') {vs : List Variable}
    (hvs : ∀ v ∈ vs, ∀ i ∈ v.id?, i < k.next) : k'.firstUnknown vs = k.firstUnknown vs := by
  induction vs with
  | nil => rfl
  | cons v vs ih =>
    rw [firstUnknown, firstUnknown, List.find?_cons, List.find?_cons,
      h.declares_eq (hvs v List.mem_cons_self)]
    split
    · rfl
    · exact ih fun w hw => hvs w (List.mem_cons_of_mem v hw)

end Env

/-! ## Expressions -/

namespace Expr

mutual

/-- The variables of an expression, as they occur from left to right. -/
def vars : Expr → List Variable
  | term t => t.var?.toList
  | phrase es => varsAll es

/-- The variables of the listed expressions, as they occur from left to right. -/
def varsAll : List Expr → List Variable
  | [] => []
  | e :: es => e.vars ++ varsAll es

end

mutual

/-- Flattening is a run of declarations. -/
theorem flatten_declarations : ∀ {e : Expr} {k : Env} {x : FlatTerm},
    e.flatten k = .ok x → k.Declarations x.env
  | .term t, k, x, h => by
    rcases flatten_term_cases h with ⟨v, r, _, hv, _⟩ | ⟨_, rfl⟩
    · exact (Env.expandVariable_declarations hv).1
    · exact .refl
  | .phrase es, k, x, h => by
    obtain ⟨y, hy, rfl⟩ := flatten_phrase_cases h
    exact (flattenAll_declarations hy).tail (.temporary phraseStem)

/-- Listed expressions are flattened by declarations. -/
theorem flattenAll_declarations : ∀ {es : List Expr} {before : Prelude} {k : Env}
    {x : FlatPhrase}, flattenAll es before k = .ok x → k.Declarations x.env
  | [], before, k, x, h => by
    rw [flattenAll] at h
    cases h
    exact .refl
  | e :: es, before, k, x, h => by
    obtain ⟨y, z, hy, hz, rfl⟩ := flattenAll_cons_cases h
    have hrest : y.env.Declarations z.env := flattenAll_declarations hz
    exact (flatten_declarations hy).trans hrest

end

/-! ## Faults -/

/-- A term of a query is flattened unless it is a variable that is not declared. -/
theorem flatten_term_of_query {k : Env} (hscope : k.scope = .query) (t : Term) :
    (∀ v, k.firstUnknown (term t).vars = some v →
      (term t).flatten k = .error (.unknownVariable v)) ∧
    (k.firstUnknown (term t).vars = none → ∃ x, (term t).flatten k = .ok x) := by
  cases t with
  | keyword a => exact ⟨fun v h => (nomatch h), fun _ => ⟨_, rfl⟩⟩
  | const c => exact ⟨fun v h => (nomatch h), fun _ => ⟨_, rfl⟩⟩
  | hole => exact ⟨fun v h => (nomatch h), fun _ => ⟨_, rfl⟩⟩
  | var w =>
    by_cases hw : k.declares w = true
    · refine ⟨fun v h => ?_, fun _ => ?_⟩
      · simp [Env.firstUnknown, vars, Term.var?, hw] at h
      · simp [flatten, Env.expandVariable, hscope, hw]
    · refine ⟨fun v h => ?_, fun h => ?_⟩
      · obtain rfl : w = v := by simpa [Env.firstUnknown, vars, Term.var?, hw] using h
        simp [flatten, Env.expandVariable, hscope, hw]
      · simp [Env.firstUnknown, vars, Term.var?, hw] at h

mutual

/-- In a query flattening meets a fault just where it finds a variable that is not declared, and
the first one decides. -/
theorem flatten_of_query : ∀ {e : Expr} {k : Env}, k.Numbered → k.scope = .query →
    (∀ v ∈ e.vars, ∀ i ∈ v.id?, i < k.next) →
    (∀ v, k.firstUnknown e.vars = some v → e.flatten k = .error (.unknownVariable v)) ∧
    (k.firstUnknown e.vars = none → ∃ x, e.flatten k = .ok x)
  | .term t, k, _, hscope, _ => flatten_term_of_query hscope t
  | .phrase es, k, hk, hscope, hvs => by
    obtain ⟨hfault, hok⟩ := flattenAll_of_query .empty hk hscope hvs
    refine ⟨fun v hv => ?_, fun hnone => ?_⟩
    · simp only [flatten, hfault v hv]
    · obtain ⟨x, hx⟩ := hok hnone
      exact ⟨_, by simp only [flatten, hx]; rfl⟩

/-- In a query, listed expressions are flattened unless one of their variables is unknown, and then
the first of these is reported. -/
theorem flattenAll_of_query : ∀ {es : List Expr} (before : Prelude) {k : Env}, k.Numbered →
    k.scope = .query → (∀ v ∈ varsAll es, ∀ i ∈ v.id?, i < k.next) →
    (∀ v, k.firstUnknown (varsAll es) = some v →
      flattenAll es before k = .error (.unknownVariable v)) ∧
    (k.firstUnknown (varsAll es) = none → ∃ x, flattenAll es before k = .ok x)
  | [], before, k, _, _, _ => ⟨fun v h => (nomatch h), fun _ => ⟨_, by rw [flattenAll]⟩⟩
  | e :: es, before, k, hk, hscope, hvs => by
    have happend : k.firstUnknown (varsAll (e :: es)) =
        (k.firstUnknown e.vars).or (k.firstUnknown (varsAll es)) :=
      List.find?_append
    obtain ⟨hfault, hok⟩ := flatten_of_query hk hscope
      fun v hv => hvs v (List.mem_append_left _ hv)
    cases hfirst : k.firstUnknown e.vars with
    | some w =>
      rw [hfirst, Option.some_or] at happend
      refine ⟨fun v hv => ?_, fun hnone => ?_⟩
      · obtain rfl : w = v := Option.some.inj (happend.symm.trans hv)
        simp only [flattenAll, hfault w hfirst]
      · cases happend.symm.trans hnone
    | none =>
      rw [hfirst, Option.none_or] at happend
      obtain ⟨x, hx⟩ := hok hfirst
      have hrun := flatten_declarations hx
      have hdeclares := hrun.onlyDeclares hk
      have hrest : ∀ v ∈ varsAll es, ∀ i ∈ v.id?, i < k.next :=
        fun v hv => hvs v (List.mem_append_right _ hv)
      -- the rest of the phrase is looked up in a later environment
      obtain ⟨hfault', hok'⟩ := flattenAll_of_query (before.conj x.prelude) (hrun.numbered hk)
        ((hrun.onlyRenames hk).scope.trans hscope)
        fun v hv i hi => Nat.lt_of_lt_of_le (hrest v hv i hi) hdeclares.next_le
      rw [hdeclares.firstUnknown_eq hrest] at hfault' hok'
      refine ⟨fun v hv => ?_, fun hnone => ?_⟩
      · simp only [flattenAll, hx, hfault' v (happend.symm.trans hv)]
      · obtain ⟨y, hy⟩ := hok' (happend.symm.trans hnone)
        exact ⟨_, by simp only [flattenAll, hx, hy]; rfl⟩

end

end Expr

end Deduction
