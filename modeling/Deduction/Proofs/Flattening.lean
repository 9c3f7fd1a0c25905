import Deduction.Proofs.WellFormed

/-!
# What flattening produces

The terms and the definitions that come out of a phrase mention only constants that
went in and variables that are declared afterwards, so they can be matched in any later
environment. Flattening meets a fault in one case only: in a query, at a variable that
was never declared.
-/

namespace Deduction

/-- Constants of the term belong to the set, and variables of the term are declared. -/
def Term.Within (U : Constant → Prop) (k : Env) (t : Term) : Prop :=
  t.Over U ∧ t.Vars fun v => k.declares v = true

/-- All terms of the definitions in a prelude have the property. -/
def Prelude.Each (P : Term → Prop) : Prelude → Prop
  | empty => True
  | define t es => P (.var t) ∧ Pattern.Each P es
  | both p q => p.Each P ∧ q.Each P

variable {U : Constant → Prop} {k k' : Env}

/-- A term whose variables are declared stays so when the environment is extended. -/
theorem Term.Within.mono {t : Term} (h : t.Within U k) (hk : k.Extends k') : t.Within U k' :=
  ⟨h.1, fun v hv => hk.declared (h.2 v hv)⟩

/-- A keyword brings neither a constant nor a variable. -/
theorem Term.within_keyword (a : Keyword) : (Term.keyword a).Within U k :=
  ⟨fun _ h => (nomatch h), fun _ h => nomatch h⟩

/-- A hole brings neither a constant nor a variable. -/
theorem Term.within_hole : Term.hole.Within U k :=
  ⟨fun _ h => (nomatch h), fun _ h => nomatch h⟩

/-- A constant is asked to belong to the set. -/
theorem Term.within_const {c : Constant} : (Term.const c).Within U k ↔ U c :=
  ⟨fun h => h.1 c rfl, fun h => ⟨fun d hd => by cases hd; exact h, fun _ hd => nomatch hd⟩⟩

/-- A variable is asked to be declared. -/
theorem Term.within_var {v : Variable} : (Term.var v).Within U k ↔ k.declares v = true :=
  ⟨fun h => h.2 v rfl, fun h => ⟨fun _ hd => (nomatch hd), fun w hw => by cases hw; exact h⟩⟩

/-- The same is asked of a referent and of the term that it is. -/
theorem Referent.within_toTerm {r : Referent} : r.toTerm.Within U k ↔ r.Within U k := by
  cases r with
  | const c => exact Term.within_const
  | var v => exact Term.within_var

namespace Prelude

/-- A weaker property of terms holds throughout a prelude, too. -/
theorem Each.mono {P Q : Term → Prop} (hPQ : ∀ t, P t → Q t) {p : Prelude} (h : p.Each P) :
    p.Each Q := by
  induction p with
  | empty => trivial
  | define t es => exact ⟨hPQ _ h.1, fun e he => hPQ e (h.2 e he)⟩
  | both p q ihp ihq => exact ⟨ihp h.1, ihq h.2⟩

/-- Leaving out empty parts changes no definition. -/
theorem each_conj {P : Term → Prop} {p q : Prelude} :
    (p.conj q).Each P ↔ p.Each P ∧ q.Each P := by
  cases p <;> cases q <;> simp [conj, Each]

/-- The pattern of a definition has the property of its terms, if the definition sign has it. -/
theorem each_definedBy {P : Term → Prop} (hdefinition : P (.keyword .definition)) {t : Variable}
    {es : List Term} (h : (define t es).Each P) : Pattern.Each P (t.definedBy es) := by
  intro x hx
  rcases List.mem_cons.mp hx with rfl | hx
  · exact h.1
  · rcases List.mem_cons.mp hx with rfl | hx
    · exact hdefinition
    · exact h.2 x hx

/-- The constants of a prelude are those of its goal. -/
theorem each_toGoal {p : Prelude} (h : p.Each (Term.Within U k)) :
    p.toGoal.Each (Term.Over U) := by
  induction p with
  | empty => trivial
  | define t es => exact fun x hx => (each_definedBy (Term.within_keyword _) h x hx).1
  | both p q ihp ihq => exact ⟨ihp h.1, ihq h.2⟩

/-- The goal of a prelude asks no host. -/
theorem hosts_toGoal (P : Host → Prop) (p : Prelude) : p.toGoal.Hosts P := by
  induction p with
  | empty => trivial
  | define t es => trivial
  | both p q ihp ihq => exact ⟨ihp, ihq⟩

end Prelude

namespace Env

/-- A rule's own variable refers to a known constant or to a declared variable. -/
theorem WellFormed.referent_within (hk : k.WellFormed) (hU : k.Over U) {l : Variable}
    {r : Referent} (hl : k.referent? l = some r) : r.Within U k := by
  cases r with
  | const c => exact hU.locals hl
  | var v => exact hk.referents hl

/-- What an own variable is bound to is declared when it is asked for. -/
theorem declareLocal_within (hk : k.WellFormed) (hU : k.Over U) (l : Variable) :
    (k.declareLocal l).1.Within U (k.declareLocal l).2 := by
  cases hl : k.referent? l with
  | none =>
    rw [declareLocal_of_unbound hl]
    exact declares_iff.mpr ⟨_, VarMap.get?_insert_self _ _ _⟩
  | some r =>
    rw [declareLocal_of_bound hl]
    exact hk.referent_within hU hl

/-- A variable expands to a known constant or to a declared variable. -/
theorem expandVariable_within (hk : k.WellFormed) (hU : k.Over U) {v : Variable} {r : Referent}
    (h : k.expandVariable v = .ok (r, k')) : r.Within U k' := by
  rw [expandVariable] at h
  split at h
  · split at h
    · rename_i hv
      cases h
      exact hv
    · cases h
  · split at h
    · rename_i hv
      cases h
      exact hv.2.2
    · have hlocal := declareLocal_within hk hU v
      rw [Except.ok.inj h] at hlocal
      exact hlocal

/-- Expanding a variable meets a fault only in a query. -/
theorem expandVariable_eq_ok {v : Variable} (h : k.scope = .query → k.declares v = true) :
    ∃ r k', k.expandVariable v = .ok (r, k') := by
  rw [expandVariable]
  cases hs : k.scope with
  | query => exact ⟨.var v, k, by simp [h hs]⟩
  | rule =>
    simp only
    split
    · exact ⟨_, _, rfl⟩
    · exact ⟨_, _, rfl⟩

end Env

namespace Expr

mutual

/-- A flattened expression mentions what went in and what is declared now. -/
theorem flatten_within : ∀ {e : Expr} {k : Env} {x : FlatTerm}, k.WellFormed → k.Over U →
    e.Each (Term.Over U) → e.flatten k = .ok x →
    x.term.Within U x.env ∧ x.prelude.Each (Term.Within U x.env)
  | .term t, k, x, hk, hU, ht, h => by
    rcases flatten_term_cases h with ⟨v, r, _, hv, hx⟩ | ⟨hnot, rfl⟩
    · rw [hx]
      exact ⟨Referent.within_toTerm.mpr (Env.expandVariable_within hk hU hv), trivial⟩
    · exact ⟨⟨ht, fun v hv => absurd hv (hnot v)⟩, trivial⟩
  | .phrase es, k, x, hk, hU, hes, h => by
    obtain ⟨y, hy, rfl⟩ := flatten_phrase_cases h
    have hempty : Prelude.empty.Each (Term.Within U k) := trivial
    obtain ⟨hterms, hprelude⟩ := flattenAll_within hk hU hes hempty hy
    have hevolves := flattenAll_evolves (U := U) hy
    have hissued : Env.Update U y.env (y.env.issueTemporary phraseStem).2 := .issued
    have hextends := (hissued.continues (hevolves.wellFormed hk).1.numbered).toExtends
    have htemporary : (Term.var (.temporary phraseStem y.env.next)).Within U
        (y.env.issueTemporary phraseStem).2 :=
      Term.within_var.mpr (Env.declares_iff.mpr ⟨_, VarMap.get?_insert_self _ _ _⟩)
    refine ⟨htemporary, Prelude.each_conj.mpr ⟨?_, htemporary, ?_⟩⟩
    · exact hprelude.mono fun t ht => ht.mono hextends
    · exact fun t ht => (hterms t ht).mono hextends

/-- The terms and the prelude of listed expressions mention declared variables only. -/
theorem flattenAll_within : ∀ {es : List Expr} {before : Prelude} {k : Env} {x : FlatPhrase},
    k.WellFormed → k.Over U → EachOf (Term.Over U) es → before.Each (Term.Within U k) →
    flattenAll es before k = .ok x →
    Pattern.Each (Term.Within U x.env) x.terms ∧ x.prelude.Each (Term.Within U x.env)
  | [], before, k, x, _, _, _, hbefore, h => by
    rw [flattenAll] at h
    cases h
    exact ⟨fun t ht => (nomatch ht), hbefore⟩
  | e :: es, before, k, x, hk, hU, hes, hbefore, h => by
    obtain ⟨y, z, hy, hz, rfl⟩ := flattenAll_cons_cases h
    have hfirst := flatten_evolves (U := U) hy
    obtain ⟨hy', hky⟩ := hfirst.wellFormed hk
    obtain ⟨hterm, hprelude⟩ := flatten_within hk hU hes.1 hy
    have hbefore' : before.Each (Term.Within U y.env) :=
      hbefore.mono fun t ht => ht.mono hky.toExtends
    obtain ⟨hterms, hpreludes⟩ := flattenAll_within hy' (hfirst.over hU) hes.2
      (Prelude.each_conj.mpr ⟨hbefore', hprelude⟩) hz
    have hrest := (flattenAll_evolves (U := U) hz).wellFormed hy'
    refine ⟨fun t ht => ?_, hpreludes⟩
    rcases List.mem_cons.mp ht with rfl | ht
    · exact hterm.mono hrest.2.toExtends
    · exact hterms t ht

end

/-- The terms and the prelude of a flattened phrase mention declared variables only. -/
theorem flattenPhrase_within {es : List Expr} {x : FlatPhrase} (hk : k.WellFormed)
    (hU : k.Over U) (hes : EachOf (Term.Over U) es) (h : flattenPhrase es k = .ok x) :
    Pattern.Each (Term.Within U x.env) x.terms ∧ x.prelude.Each (Term.Within U x.env) :=
  have hempty : Prelude.empty.Each (Term.Within U k) := trivial
  flattenAll_within hk hU hes hempty h

mutual

/-- Flattening an expression meets a fault only at an unknown variable of a query. -/
theorem flatten_eq_ok : ∀ {e : Expr} {k : Env}, k.WellFormed →
    (k.scope = .query → e.Each (Term.Vars fun v => k.declares v = true)) →
    ∃ x, e.flatten k = .ok x
  | .term t, k, _, hv => by
    cases t with
    | var v =>
      obtain ⟨r, k', h⟩ := Env.expandVariable_eq_ok (v := v) fun hs => hv hs v rfl
      exact ⟨_, by simp only [flatten, h]; rfl⟩
    | keyword a => exact ⟨_, by simp only [flatten]; rfl⟩
    | const c => exact ⟨_, by simp only [flatten]; rfl⟩
    | hole => exact ⟨_, by simp only [flatten]; rfl⟩
  | .phrase es, k, hk, hv => by
    obtain ⟨x, hx⟩ := flattenAll_eq_ok .empty hk hv
    exact ⟨_, by simp only [flatten, hx]; rfl⟩

/-- Listed expressions can be flattened, in a query if their variables are declared. -/
theorem flattenAll_eq_ok : ∀ {es : List Expr} (before : Prelude) {k : Env}, k.WellFormed →
    (k.scope = .query → EachOf (Term.Vars fun v => k.declares v = true) es) →
    ∃ x, flattenAll es before k = .ok x
  | [], before, k, _, _ => ⟨_, by rw [flattenAll]⟩
  | e :: es, before, k, hk, hv => by
    obtain ⟨x, hx⟩ := flatten_eq_ok hk fun hs => (hv hs).1
    obtain ⟨hkx, hcontinues⟩ := (flatten_evolves (U := fun _ => True) hx).wellFormed hk
    have hrest : x.env.scope = .query →
        EachOf (Term.Vars fun v => x.env.declares v = true) es := by
      intro hs
      rw [hcontinues.scope] at hs
      exact (hv hs).2.mono fun t ht v htv => hcontinues.declared (ht v htv)
    obtain ⟨y, hy⟩ := flattenAll_eq_ok (before.conj x.prelude) hkx hrest
    exact ⟨_, by simp only [flattenAll, hx, hy]; rfl⟩

end

end Expr

end Deduction
