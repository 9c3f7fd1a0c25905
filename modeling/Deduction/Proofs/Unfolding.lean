import Deduction.Proofs.Unnesting

/-!
# Flattening and unfolding phrases

Flattening can be undone: substituting the definitions of the prelude gives the phrase back, with
every variable replaced by what it expands to, which is the same at all its occurrences. Flattening
meets a fault only in a query, at the first variable that is not declared, and does nothing to the
environment but declare the temporaries and the renamed variables that it uses.
-/

namespace Deduction

open Definition

/-- The definitions of one prelude after the other. -/
theorem Prelude.definitions_conj (p q : Prelude) :
    (p.conj q).definitions = p.definitions ++ q.definitions := by
  cases p <;> cases q <;> simp [conj, definitions]

/-- What is true of the terms of a prelude is true of each of its definitions. -/
theorem Prelude.each_definitions {P : Term → Prop} {p : Prelude} (h : p.Each P) {d : Definition}
    (hd : d ∈ p.definitions) : P (.var d.temporary) ∧ ∀ t ∈ d.elements, P t := by
  induction p with
  | empty => cases hd
  | define t es =>
    obtain rfl := List.mem_singleton.mp hd
    exact h
  | both p q ihp ihq =>
    rcases List.mem_append.mp hd with hd | hd
    · exact ihp h.1 hd
    · exact ihq h.2 hd

namespace Expr

mutual

/-- It was decided what the variables of a flattened expression expand to. -/
theorem flatten_expandsTo : ∀ {e : Expr} {k : Env} {x : FlatTerm}, k.Numbered →
    e.flatten k = .ok x → ∀ v ∈ e.vars, ∃ r, x.env.ExpandsTo v r
  | .term t, k, x, _, h, v, hv => by
    rcases flatten_term_cases h with ⟨w, r, rfl, hw, _⟩ | ⟨hnot, _⟩
    · obtain rfl := List.mem_singleton.mp hv
      exact ⟨r, (Env.expandVariable_declarations hw).2⟩
    · cases t with
      | var w => exact absurd rfl (hnot w)
      | keyword a => cases hv
      | const c => cases hv
      | hole => cases hv
  | .phrase es, k, x, hk, h, v, hv => by
    obtain ⟨y, hy, rfl⟩ := flatten_phrase_cases h
    obtain ⟨r, hr⟩ := flattenAll_expandsTo hk hy v hv
    exact ⟨r, hr.mono (.single (.temporary phraseStem)) ((flattenAll_declarations hy).numbered hk)⟩

/-- When listed expressions have been flattened, all of their variables have been expanded. -/
theorem flattenAll_expandsTo : ∀ {es : List Expr} {before : Prelude} {k : Env} {x : FlatPhrase},
    k.Numbered → flattenAll es before k = .ok x → ∀ v ∈ varsAll es, ∃ r, x.env.ExpandsTo v r
  | [], before, k, x, _, _, v, hv => nomatch hv
  | e :: es, before, k, x, hk, h, v, hv => by
    obtain ⟨y, z, hy, hz, rfl⟩ := flattenAll_cons_cases h
    have hnumbered : y.env.Numbered := (flatten_declarations hy).numbered hk
    have hrest : y.env.Declarations z.env := flattenAll_declarations hz
    rcases List.mem_append.mp hv with hv | hv
    · obtain ⟨r, hr⟩ := flatten_expandsTo hk hy v hv
      exact ⟨r, hr.mono hrest hnumbered⟩
    · exact flattenAll_expandsTo hnumbered hz v hv

end

mutual

/-- Flattening takes phrases apart, and makes of variables what they expand to in the end. -/
theorem flatten_unnests {f : Variable → Term} : ∀ {e : Expr} {k : Env} {x : FlatTerm},
    k.Numbered → e.flatten k = .ok x →
    (∀ v ∈ e.vars, ∀ r, x.env.ExpandsTo v r → f v = r.toTerm) →
    Unnests f k.next [e] [x.term] x.prelude.definitions x.env.next
  | .term t, k, x, hk, h, hf => by
    have hle := ((flatten_declarations h).onlyDeclares hk).next_le
    rcases flatten_term_cases h with ⟨w, r, rfl, hw, hx⟩ | ⟨hnot, rfl⟩
    · have hfw := hf w (List.mem_singleton_self w) r (Env.expandVariable_declarations hw).2
      rw [hx, ← hfw]
      exact .term (.var w) hle
    · have ht : t.replaceVars f = t := by
        cases t with
        | var w => exact absurd rfl (hnot w)
        | keyword a => rfl
        | const c => rfl
        | hole => rfl
      have hterm : Unnests f k.next [.term t] [t.replaceVars f] [] k.next := .term t hle
      rwa [ht] at hterm
  | .phrase es, k, x, hk, h, hf => by
    obtain ⟨y, hy, rfl⟩ := flatten_phrase_cases h
    have hnumbered : y.env.Numbered := (flattenAll_declarations hy).numbered hk
    obtain ⟨ds, hds, helements⟩ := flattenAll_unnests hk hy fun v hv r hr =>
      hf v hv r (hr.mono (.single (.temporary phraseStem)) hnumbered)
    rw [Prelude.definitions_conj, hds]
    exact .phrase helements

/-- The flattening of listed expressions unnests their phrases, with the variables expanded. -/
theorem flattenAll_unnests {f : Variable → Term} : ∀ {es : List Expr} {before : Prelude} {k : Env}
    {x : FlatPhrase}, k.Numbered → flattenAll es before k = .ok x →
    (∀ v ∈ varsAll es, ∀ r, x.env.ExpandsTo v r → f v = r.toTerm) →
    ∃ ds, x.prelude.definitions = before.definitions ++ ds ∧
      Unnests f k.next es x.terms ds x.env.next
  | [], before, k, x, _, h, _ => by
    rw [flattenAll] at h
    cases h
    exact ⟨[], (List.append_nil _).symm, .nil⟩
  | e :: es, before, k, x, hk, h, hf => by
    obtain ⟨y, z, hy, hz, rfl⟩ := flattenAll_cons_cases h
    have hnumbered : y.env.Numbered := (flatten_declarations hy).numbered hk
    have hrest : y.env.Declarations z.env := flattenAll_declarations hz
    have helement := flatten_unnests (f := f) hk hy fun v hv r hr =>
      hf v (List.mem_append_left _ hv) r (hr.mono hrest hnumbered)
    obtain ⟨ds, hds, helements⟩ := flattenAll_unnests hnumbered hz fun v hv =>
      hf v (List.mem_append_right _ hv)
    refine ⟨y.prelude.definitions ++ ds, ?_, .cons helement helements⟩
    rw [hds, Prelude.definitions_conj, List.append_assoc]

end

variable {es : List Expr} {k : Env} {x : FlatPhrase}

/-- A flattened phrase was taken apart with what its variables expand to. -/
theorem flattenPhrase_unnests (hk : k.Numbered) (h : flattenPhrase es k = .ok x) :
    Unnests x.env.expansion k.next es x.terms x.prelude.definitions x.env.next := by
  obtain ⟨ds, hds, hunnests⟩ := flattenAll_unnests hk h fun v _ r hr => hr.expansion_eq
  rw [hds]
  exact hunnests

/-- No variable of a phrase expands to a temporary that was issued for one of its phrases. -/
theorem avoids_expansion (hk : k.WellFormed) (hvs : ∀ v ∈ varsAll es, ∀ i ∈ v.id?, i < k.next)
    (h : flattenPhrase es k = .ok x) : Avoids x.env.expansion k.next es := by
  intro v hv i hi heq
  obtain ⟨r, hr⟩ := flattenAll_expandsTo hk.numbered h v hv
  obtain rfl : r = .var (phraseVar i) := by
    rw [hr.expansion_eq] at heq
    cases r with
    | const c => cases heq
    | var w => rw [Term.var.inj heq]
  have hself : Referent.var (phraseVar i) ≠ .var v := by
    intro hrv
    exact absurd (hvs v hv i (by rw [← Referent.var.inj hrv]; rfl)) (Nat.not_lt.mpr hi)
  rcases Env.expandsTo_iff.mp hr with ⟨_, _, hrv⟩ | ⟨_, hl | ⟨_, _, _, hrv⟩⟩
  · exact hself hrv
  · -- what was bound before was declared before, and what has been bound since was renamed
    have hrenames := (flattenAll_declarations h).onlyRenames hk.numbered
    cases hl₀ : k.referent? v with
    | some p =>
      obtain rfl : p = _ := Option.some.inj ((hrenames.kept hl₀).symm.trans hl)
      exact absurd (hk.numbered (hk.referents hl₀) rfl) (Nat.not_lt.mpr hi)
    | none =>
      obtain ⟨_, j, hj, _⟩ := hrenames.added hl hl₀
      cases hj
  · exact hself hrv

/-- Substituting the definitions of the prelude gives the phrase back, with every variable replaced
by what it expands to. -/
theorem map_substituteAll_flattenPhrase (hk : k.WellFormed)
    (hvs : ∀ v ∈ varsAll es, ∀ i ∈ v.id?, i < k.next) (h : flattenPhrase es k = .ok x) :
    x.terms.map (substituteAll .term x.prelude.definitions) =
      replaceVarsAll x.env.expansion es :=
  (flattenPhrase_unnests hk.numbered h).map_substituteAll (avoids_expansion hk hvs h)
    (Nat.le_refl _) fun _ _ => rfl

end Expr

/-! ## What comes out of a phrase -/

open Deduction.Expr

/-- The flattened phrase can be unfolded: it has one term for each element, and its prelude solves
one definition for each nested phrase, of a new temporary of its own that is used only once, and
only after it was defined. Substituting the definitions gives back the nested phrases and the phrase
itself, with every variable replaced by what it expands to in the end. -/
structure FlatPhrase.Unfolds (x : FlatPhrase) (k : Env) (es : List Expr) : Prop where
  length_eq : x.terms.length = es.length
  conjuncts_eq : x.prelude.toGoal.conjuncts = x.prelude.definitions.map Definition.goal
  phrases_eq : (x.prelude.definitions.map fun d =>
      substituteAll .term x.prelude.definitions (.var d.temporary)) =
    (phrasesAll es).map (replaceVars x.env.expansion)
  nodup : (x.prelude.definitions.map temporary).Nodup
  issued : ∀ d ∈ x.prelude.definitions, d.temporary.isTemporary = true ∧
    k.declares d.temporary = false ∧ x.env.declares d.temporary = true
  used_once : ∀ before d after, x.prelude.definitions = before ++ d :: after →
    Term.var d.temporary ∉ before.flatMap elements ++ d.elements ∧
    (after.flatMap elements ++ x.terms).count (.var d.temporary) = 1
  terms_eq : x.terms.map (substituteAll .term x.prelude.definitions) =
    replaceVarsAll x.env.expansion es
  expands : ∀ v ∈ varsAll es, ∃ r, x.env.ExpandsTo v r ∧ x.env.expansion v = r.toTerm

/-- What flattening does with the variables of a phrase: it declares and binds nothing but new
variables, and all occurrences of a variable become the same term. In a query that is the variable
itself. In a rule it is what the variable is bound to; unbound variables are bound to new ones, a
different one each, but issued variables that are declared stay what they are. All variables that
come out are declared. -/
structure FlatPhrase.Expands (x : FlatPhrase) (k : Env) (es : List Expr) : Prop where
  onlyDeclares : k.OnlyDeclares x.env
  onlyRenames : k.OnlyRenames x.env
  terms_eq : x.terms.map (substituteAll .term x.prelude.definitions) =
    replaceVarsAll x.env.expansion es
  of_query : k.scope = .query → ∀ v ∈ varsAll es, x.env.expansion v = .var v
  of_bound : k.scope = .rule → ∀ v ∈ varsAll es, ∀ r, k.referent? v = some r →
    x.env.expansion v = r.toTerm
  of_issued : k.scope = .rule → ∀ v ∈ varsAll es, k.referent? v = none → v.IsIssued →
    k.declares v = true → x.env.expansion v = .var v
  of_unbound : k.scope = .rule → ∀ v ∈ varsAll es, k.referent? v = none →
    ¬ (v.IsIssued ∧ k.declares v = true) → ∃ w, x.env.expansion v = .var w ∧
      x.env.referent? v = some (.var w) ∧ k.declares w = false ∧ x.env.declares w = true
  distinct : k.scope = .rule → ∀ v ∈ varsAll es, ∀ w ∈ varsAll es, k.referent? v = none →
    k.referent? w = none → x.env.expansion v = x.env.expansion w → v = w
  terms_declared : Pattern.Each (Term.Vars fun v => x.env.declares v = true) x.terms
  prelude_declared : x.prelude.Each (Term.Vars fun v => x.env.declares v = true)

namespace Expr

variable {es : List Expr} {k : Env} {x : FlatPhrase}

/-- The variables that come out of a phrase are declared. -/
theorem declared_flattenPhrase (hk : k.WellFormed) (h : flattenPhrase es k = .ok x) :
    Pattern.Each (Term.Vars fun v => x.env.declares v = true) x.terms ∧
      x.prelude.Each (Term.Vars fun v => x.env.declares v = true) := by
  have hany : ∀ t : Term, t.Over fun _ => True := fun _ _ _ => trivial
  obtain ⟨hterms, hprelude⟩ :=
    flattenPhrase_within hk k.over_univ (eachOf_of_forall hany es) h
  exact ⟨fun t ht => (hterms t ht).2, hprelude.mono fun t ht => ht.2⟩

/-- Phrases that were flattened can be unfolded. -/
theorem flattenPhrase_unfolds (hk : k.WellFormed)
    (hvs : ∀ v ∈ varsAll es, ∀ i ∈ v.id?, i < k.next) (h : flattenPhrase es k = .ok x) :
    x.Unfolds k es := by
  have hunnests := flattenPhrase_unnests hk.numbered h
  have havoids := avoids_expansion hk hvs h
  refine ⟨hunnests.length_eq, Goal.conjuncts_toGoal _,
    hunnests.map_temporary havoids (Nat.le_refl _) fun _ _ => rfl, hunnests.nodup,
    fun d hd => ?_, fun before d after hd => hunnests.used_once havoids hd,
    map_substituteAll_flattenPhrase hk hvs h, fun v hv => ?_⟩
  · obtain ⟨i, hi, hle, _⟩ := hunnests.exists_number hd
    obtain ⟨hdeclared, _⟩ := Prelude.each_definitions (declared_flattenPhrase hk h).2 hd
    refine ⟨hi ▸ rfl, ?_, hdeclared _ rfl⟩
    by_contra hold
    rw [Bool.not_eq_false, hi] at hold
    exact absurd (hk.numbered hold rfl) (Nat.not_lt.mpr hle)
  · obtain ⟨r, hr⟩ := flattenAll_expandsTo hk.numbered h v hv
    exact ⟨r, hr, hr.expansion_eq⟩

end Expr

namespace Sample

/-- The scope of a rule whose variable `g` is bound to the variable `q` of the query. -/
def scopeOfGuest : Env :=
  (Env.declaring [.named "q"]).startMatching.setLocal (.named "g") (.var (.named "q"))

/-- Says that `g` is the father of `c`'s father, and not of `c`'s mother, or of `d`. -/
def guestPhrase : List Expr :=
  [written "g", .term (.keyword (.named "is")),
    .phrase [atom "father", .phrase [atom "father", written "c"]], .term (.keyword (.named "not")),
    .phrase [atom "father", .phrase [atom "mother", written "c"], written "d"]]

/-- Four phrases at two depths, a bound variable, and an unbound one that occurs twice. -/
theorem guestPhrase_unfolds :
    (Expr.flattenPhrase guestPhrase scopeOfGuest).map
      (fun x => x.prelude.definitions.map temporary) = .ok ([1, 2, 3, 5].map Expr.phraseVar) ∧
    ∃ x, Expr.flattenPhrase guestPhrase scopeOfGuest = .ok x ∧
      x.Unfolds scopeOfGuest guestPhrase := by
  have hok : (Expr.flattenPhrase guestPhrase scopeOfGuest).isOk = true := by decide +kernel
  refine ⟨by decide +kernel, ?_⟩
  cases hx : Expr.flattenPhrase guestPhrase scopeOfGuest with
  | error f =>
    rw [hx] at hok
    cases hok
  | ok x => exact ⟨x, rfl, Expr.flattenPhrase_unfolds (by decide +kernel) (by decide +kernel) hx⟩

end Sample

namespace Expr

variable {es : List Expr} {k : Env} {x : FlatPhrase}

/-- An unbound variable of a rule stays what it is if it was issued and is declared. Otherwise it
is bound to a new variable that has its name. -/
theorem expandsTo_of_unbound (hk : k.WellFormed)
    (hvs : ∀ v ∈ varsAll es, ∀ i ∈ v.id?, i < k.next) (h : flattenPhrase es k = .ok x)
    (hscope : k.scope = .rule) {v : Variable} (hv : v ∈ varsAll es) (hnone : k.referent? v = none) :
    v.IsIssued ∧ k.declares v = true ∧ x.env.ExpandsTo v (.var v) ∨
      ¬ (v.IsIssued ∧ k.declares v = true) ∧ ∃ i, x.env.ExpandsTo v (.var (.renamed v.name i)) ∧
        x.env.referent? v = some (.var (.renamed v.name i)) ∧
        k.declares (.renamed v.name i) = false := by
  have hrun := flattenAll_declarations h
  have hrenames := hrun.onlyRenames hk.numbered
  have hdeclares := hrun.onlyDeclares hk.numbered
  obtain ⟨r, hr⟩ := flattenAll_expandsTo hk.numbered h v hv
  rcases Env.expandsTo_iff.mp hr with ⟨hquery, _⟩ | ⟨_, hl | ⟨_, hissued, hdeclared, rfl⟩⟩
  · cases (hrenames.scope.trans hscope).symm.trans hquery
  · obtain ⟨_, i, rfl, hle, _⟩ := hrenames.added hl hnone
    refine Or.inr ⟨fun ⟨hissued, hdeclared⟩ => ?_, i, hr, hl, ?_⟩
    · cases (hrenames.unbound hissued hdeclared hnone).symm.trans hl
    · by_contra hold
      rw [Bool.not_eq_false] at hold
      exact absurd (hk.numbered hold rfl) (Nat.not_lt.mpr hle)
  · rw [hdeclares.declares_eq (hvs v hv)] at hdeclared
    exact Or.inl ⟨hissued, hdeclared, hr⟩

/-- Unbound variables of a rule that become the same term are the same. -/
theorem eq_of_expansion_eq (hk : k.WellFormed)
    (hvs : ∀ v ∈ varsAll es, ∀ i ∈ v.id?, i < k.next) (h : flattenPhrase es k = .ok x)
    (hscope : k.scope = .rule) {v w : Variable} (hv : v ∈ varsAll es) (hw : w ∈ varsAll es)
    (hnone : k.referent? v = none) (hnone' : k.referent? w = none)
    (heq : x.env.expansion v = x.env.expansion w) : v = w := by
  have hrenames := (flattenAll_declarations h).onlyRenames hk.numbered
  rcases expandsTo_of_unbound hk hvs h hscope hv hnone with
    ⟨_, hdeclared, hr⟩ | ⟨_, i, hr, hl, hnew⟩ <;>
  rcases expandsTo_of_unbound hk hvs h hscope hw hnone' with
    ⟨_, hdeclared', hr'⟩ | ⟨_, j, hr', hl', hnew'⟩ <;>
  rw [hr.expansion_eq, hr'.expansion_eq] at heq <;>
  have heq := Term.var.inj heq
  · exact heq
  · rw [heq, hnew'] at hdeclared
    cases hdeclared
  · rw [← heq, hnew] at hdeclared'
    cases hdeclared'
  · rw [heq] at hl
    exact hrenames.distinct hl hl' hnone hnone'

/-- All that flattening a phrase does to the environment and to its variables. -/
theorem expands_of_flattenPhrase (hk : k.WellFormed)
    (hvs : ∀ v ∈ varsAll es, ∀ i ∈ v.id?, i < k.next) (h : flattenPhrase es k = .ok x) :
    x.Expands k es := by
  have hrun := flattenAll_declarations h
  have hrenames := hrun.onlyRenames hk.numbered
  obtain ⟨hterms, hprelude⟩ := declared_flattenPhrase hk h
  refine ⟨hrun.onlyDeclares hk.numbered, hrenames, map_substituteAll_flattenPhrase hk hvs h,
    fun hscope v hv => ?_, fun hscope v _ r hl => ?_,
    fun hscope v hv hnone hissued hdeclared => ?_, fun hscope v hv hnone hown => ?_,
    fun hscope v hv w hw => eq_of_expansion_eq hk hvs h hscope hv hw, hterms, hprelude⟩
  · obtain ⟨r, hr⟩ := flattenAll_expandsTo hk.numbered h v hv
    rcases Env.expandsTo_iff.mp hr with ⟨_, _, rfl⟩ | ⟨hrule, _⟩
    · exact hr.expansion_eq
    · cases (hrenames.scope.trans hscope).symm.trans hrule
  · have hr : x.env.ExpandsTo v r := Env.expandsTo_iff.mpr
      (Or.inr ⟨hrenames.scope.trans hscope, Or.inl (hrenames.kept hl)⟩)
    exact hr.expansion_eq
  · rcases expandsTo_of_unbound hk hvs h hscope hv hnone with ⟨_, _, hr⟩ | ⟨hnot, _⟩
    · exact hr.expansion_eq
    · exact absurd ⟨hissued, hdeclared⟩ hnot
  · rcases expandsTo_of_unbound hk hvs h hscope hv hnone with
      ⟨hissued, hdeclared, _⟩ | ⟨_, i, hr, hl, hnew⟩
    · exact absurd ⟨hissued, hdeclared⟩ hown
    · exact ⟨_, hr.expansion_eq, hl, hnew, (flattenPhrase_wellFormed h hk).1.referents hl⟩

/-- The fault of a phrase in a query is its first variable that is not declared. -/
theorem flattenPhrase_eq_error_iff (hk : k.WellFormed) (hscope : k.scope = .query)
    (hvs : ∀ v ∈ varsAll es, ∀ i ∈ v.id?, i < k.next) {f : Fault} :
    flattenPhrase es k = .error f ↔
      ∃ v, k.firstUnknown (varsAll es) = some v ∧ f = .unknownVariable v := by
  obtain ⟨hfault, hok⟩ := flattenAll_of_query .empty hk.numbered hscope hvs
  cases hfirst : k.firstUnknown (varsAll es) with
  | none =>
    obtain ⟨x, hx⟩ := hok hfirst
    simp [flattenPhrase, hx]
  | some v => simp [flattenPhrase, hfault v hfirst, eq_comm]

/-- What flattening a phrase does to the environment, and when it meets a fault: in the scope of a
rule never, and in a query just when a variable of the phrase is not declared, whereby the first
one, as the phrase is read from left to right, is the fault. -/
theorem flattenPhrase_effect (hk : k.WellFormed)
    (hvs : ∀ v ∈ varsAll es, ∀ i ∈ v.id?, i < k.next) :
    (k.scope = .rule → ∃ x, flattenPhrase es k = .ok x) ∧
    (k.scope = .query →
      ((∃ f, flattenPhrase es k = .error f) ↔ ∃ v ∈ varsAll es, k.declares v = false) ∧
      ∀ f, flattenPhrase es k = .error f ↔
        ∃ v, k.firstUnknown (varsAll es) = some v ∧ f = .unknownVariable v) ∧
    ∀ x, flattenPhrase es k = .ok x → x.Expands k es := by
  refine ⟨fun hscope => ?_, fun hscope => ⟨⟨fun ⟨f, hf⟩ => ?_, fun ⟨v, hv, hnot⟩ => ?_⟩,
    fun f => flattenPhrase_eq_error_iff hk hscope hvs⟩,
    fun x h => expands_of_flattenPhrase hk hvs h⟩
  · exact flattenAll_eq_ok .empty hk fun hquery => by cases hscope.symm.trans hquery
  · obtain ⟨v, hv, _⟩ := (flattenPhrase_eq_error_iff hk hscope hvs).mp hf
    exact ⟨v, Env.firstUnknown_eq_some hv⟩
  · obtain ⟨w, hw⟩ := Env.exists_firstUnknown hv hnot
    exact ⟨_, (flattenPhrase_eq_error_iff hk hscope hvs).mpr ⟨w, hw, rfl⟩⟩

end Expr

namespace Sample

/-- In the scope of the rule the phrase is flattened. In the query outside of it the first variable
that is not declared is `g`; were that left out, it would be `c`, which is nested. -/
theorem guestPhrase_effect :
    (∃ x, Expr.flattenPhrase guestPhrase scopeOfGuest = .ok x ∧
      x.Expands scopeOfGuest guestPhrase) ∧
    Expr.flattenPhrase guestPhrase (.declaring [.named "q"]) =
      .error (.unknownVariable (.named "g")) ∧
    Expr.flattenPhrase guestPhrase.tail (.declaring [.named "q"]) =
      .error (.unknownVariable (.named "c")) := by
  have hrule : ∀ v ∈ Expr.varsAll guestPhrase, ∀ i ∈ v.id?, i < scopeOfGuest.next := by
    decide +kernel
  have hquery : ∀ v ∈ Expr.varsAll guestPhrase, ∀ i ∈ v.id?,
      i < (Env.declaring [.named "q"]).next := by decide +kernel
  have hquery' : ∀ v ∈ Expr.varsAll guestPhrase.tail, ∀ i ∈ v.id?,
      i < (Env.declaring [.named "q"]).next := by decide +kernel
  obtain ⟨hok, _, hexpands⟩ := Expr.flattenPhrase_effect (by decide +kernel) hrule
  obtain ⟨_, hfault, _⟩ := Expr.flattenPhrase_effect (by decide +kernel) hquery
  obtain ⟨_, hfault', _⟩ := Expr.flattenPhrase_effect (by decide +kernel) hquery'
  obtain ⟨x, hx⟩ := hok (by decide)
  exact ⟨⟨x, hx, hexpands x hx⟩, ((hfault rfl).2 _).mpr ⟨.named "g", by decide +kernel, rfl⟩,
    ((hfault' rfl).2 _).mpr ⟨.named "c", by decide +kernel, rfl⟩⟩

end Sample

end Deduction
