import Deduction.Proofs.Equations

/-!
# Matches are most general

Each operation that learns an equation is described by the assignments under which its
outcome is true: they are those under which the environment was true before and the equation
as well. So a clash means that there are none, and a match admits every pair of equal
instances of condition and goal, but nothing else. That two patterns have equal instances is
said position by position, so it does not matter in which order the positions are visited.
-/

namespace Deduction

variable {U : Constant → Prop}

/-! ## Equal instances -/

/-- The comparison finds the two terms equal. -/
def Term.Equals (t u : Term) : Prop := t.agrees u = .ok true

/-- A term without variables and holes that the term can become: variables stand for what they
are given, and a hole for any constant of the set. -/
inductive Term.HasInstance (s : Assignment U) : Term → Term → Prop
  | keyword {a : Keyword} : HasInstance s (.keyword a) (.keyword a)
  | const {c : Constant} : HasInstance s (.const c) (.const c)
  | var {v : Variable} : HasInstance s (.var v) (.const (s v))
  | hole {c : {c : Constant // U c}} : HasInstance s .hole (.const c)

/-- The terms of a condition and of a goal have equal instances. -/
def Term.Unify (own s : Assignment U) (a t : Term) : Prop :=
  ∃ u w, a.HasInstance own u ∧ t.HasInstance s w ∧ u.Equals w

/-- A condition and a goal have equal instances, the same in all positions. -/
def Pattern.Unify (own s : Assignment U) (condition goal : Pattern) : Prop :=
  ∃ us ws, List.Forall₂ (Term.HasInstance own) condition us ∧
    List.Forall₂ (Term.HasInstance s) goal ws ∧ List.Forall₂ Term.Equals us ws

section

variable {own s : Assignment U}

/-- Referents have one instance each. -/
theorem Term.unify_toTerm_iff {p r : Referent} :
    p.toTerm.Unify own s r.toTerm ↔ (p.under own).Equals (r.under s) := by
  constructor
  · rintro ⟨u, w, hu, hw, h⟩
    cases p <;> cases r <;> cases hu <;> cases hw <;> exact h
  · intro h
    cases p <;> cases r
    · exact ⟨_, _, .const, .const, h⟩
    · exact ⟨_, _, .const, .var, h⟩
    · exact ⟨_, _, .var, .const, h⟩
    · exact ⟨_, _, .var, .var, h⟩

/-- A hole can become whatever it is compared with. -/
theorem Term.unify_toTerm_hole {p : Referent} (hp : U (p.under own)) :
    p.toTerm.Unify own s .hole := by
  cases p with
  | const c => exact ⟨_, _, .const, .hole (c := ⟨c, hp⟩), Constant.Equals.refl c⟩
  | var v => exact ⟨_, _, .var, .hole (c := own v), Constant.Equals.refl _⟩

/-- A hole unifies with what stands for a constant of the set. -/
theorem Term.unify_hole_toTerm {r : Referent} (hr : U (r.under s)) :
    Term.hole.Unify own s r.toTerm := by
  cases r with
  | const c => exact ⟨_, _, .hole (c := ⟨c, hr⟩), .const, Constant.Equals.refl c⟩
  | var v => exact ⟨_, _, .hole (c := s v), .var, Constant.Equals.refl _⟩

/-- Two holes unify, as there is a constant to stand for both. -/
theorem Term.unify_hole_hole (hU : Constant.Lawful U) : Term.hole.Unify own s .hole :=
  ⟨_, _, .hole (c := ⟨.atom "", hU.atom ""⟩), .hole (c := ⟨.atom "", hU.atom ""⟩),
    Constant.Equals.refl (.atom "")⟩

/-- A keyword stands only for itself. -/
theorem Term.unify_keyword_iff {a : Keyword} {t : Term} :
    (Term.keyword a).Unify own s t ↔ t = .keyword a := by
  constructor
  · rintro ⟨_, w, ⟨⟩, hw, h⟩
    cases hw with
    | @keyword b =>
      have hab : a = b := by simpa [Equals, agrees] using h
      rw [hab]
    | const => cases h
    | var => cases h
    | hole => cases h
  · rintro rfl
    exact ⟨_, _, .keyword, .keyword, by simp [Equals, agrees]⟩

/-- Only the same keyword unifies with a keyword. -/
theorem Term.unify_keyword_right_iff {t : Term} {b : Keyword} :
    t.Unify own s (.keyword b) ↔ t = .keyword b := by
  constructor
  · rintro ⟨u, _, hu, ⟨⟩, h⟩
    cases hu with
    | keyword => simpa [Equals, agrees] using h
    | const => cases h
    | var => cases h
    | hole => cases h
  · rintro rfl
    exact Term.unify_keyword_iff.mpr rfl

/-- Patterns have equal instances when their terms have them, position by position. -/
theorem Pattern.unify_iff_forall₂ {condition goal : Pattern} :
    Pattern.Unify own s condition goal ↔ List.Forall₂ (Term.Unify own s) condition goal := by
  constructor
  · rintro ⟨us, ws, hcondition, hgoal, hequal⟩
    induction hcondition generalizing goal ws with
    | nil =>
      cases hequal
      cases hgoal
      exact .nil
    | cons ha _ ih =>
      cases hequal with
      | cons h hs =>
        cases hgoal with
        | cons ht hts => exact .cons ⟨_, _, ha, ht, h⟩ (ih _ hts hs)
  · intro h
    induction h with
    | nil => exact ⟨[], [], .nil, .nil, .nil⟩
    | cons hat _ ih =>
      obtain ⟨u, w, hu, hw, heq⟩ := hat
      obtain ⟨us, ws, hus, hws, heqs⟩ := ih
      exact ⟨u :: us, w :: ws, .cons hu hus, .cons hw hws, .cons heq heqs⟩

end

/-! ## What an outcome teaches -/

/-- The assignments after an attempt are those before it for which the statement is true. -/
def Outcome.Teaches (k : Env) (o : Outcome) (P : Assignment U → Assignment U → Prop) : Prop :=
  ∀ s own, (∃ k', o.after k = some k' ∧ k'.TrueWith s own) ↔ k.TrueWith s own ∧ P s own

namespace Outcome

variable {k k' : Env} {P Q : Assignment U → Assignment U → Prop} {o : Outcome}

/-- An outcome that learns nothing teaches what holds already. -/
theorem teaches_known (h : ∀ s own, k.TrueWith s own → P s own) : known.Teaches k P := by
  intro s own
  constructor
  · rintro ⟨_, ⟨⟩, htrue⟩
    exact ⟨htrue, h s own htrue⟩
  · exact fun htrue => ⟨k, rfl, htrue.1⟩

/-- A clash teaches what cannot hold. -/
theorem teaches_clash (h : ∀ s own, k.TrueWith s own → ¬ P s own) : clash.Teaches k P := by
  intro s own
  constructor
  · rintro ⟨_, ⟨⟩, _⟩
  · exact fun htrue => (h s own htrue.1 htrue.2).elim

/-- What was learned is what the new environment asks beside the old one. -/
theorem teaches_learned (h : ∀ s own, k'.TrueWith s own ↔ k.TrueWith s own ∧ P s own) :
    (learned k').Teaches k P := by
  intro s own
  rw [← h]
  constructor
  · rintro ⟨_, ⟨⟩, htrue⟩
    exact htrue
  · exact fun htrue => ⟨k', rfl, htrue⟩

/-- Statements that are the same for the environment are taught alike. -/
theorem Teaches.congr (h : o.Teaches k P)
    (hPQ : ∀ s own, k.TrueWith s own → (P s own ↔ Q s own)) : o.Teaches k Q := by
  intro s own
  rw [h s own]
  exact and_congr_right (hPQ s own)

/-- Comparing two constants teaches that they are equal. -/
theorem teaches_ofComparison {c d : Constant} (h : ofComparison (c.agrees d) = .ok o) :
    o.Teaches (U := U) k fun _ _ => c.Equals d := by
  cases hcd : c.agrees d with
  | error cause => rw [hcd] at h; cases h
  | ok verdict =>
    rw [hcd] at h
    cases verdict with
    | true =>
      cases h
      exact teaches_known fun _ _ _ => hcd
    | false =>
      cases h
      refine teaches_clash fun _ _ _ hequals => ?_
      rw [Constant.Equals, hcd] at hequals
      cases hequals

/-- An attempt that adds an equation teaches it, whatever the rule's own variables are bound to. -/
theorem Adds.teaches {P : Assignment U → Prop} (h : o.Adds k P) :
    o.Teaches k fun s _ => P s := by
  intro s own
  have htrue := h.truth_iff s
  constructor
  · rintro ⟨k', hk', hknown, hbindings⟩
    obtain ⟨hs, hP⟩ := htrue.mp ⟨k', hk', hknown⟩
    exact ⟨⟨hs, fun hl => hbindings (by rwa [Env.referent?, h.locals_eq hk'])⟩, hP⟩
  · rintro ⟨⟨hknown, hbindings⟩, hP⟩
    obtain ⟨k', hk', hs⟩ := htrue.mpr ⟨hknown, hP⟩
    exact ⟨k', hk', hs, fun hl => hbindings (by rwa [Env.referent?, ← h.locals_eq hk'])⟩

end Outcome

namespace Env

variable {k : Env} {o : Outcome} {s own : Assignment U}

/-- Binding an unbound variable of a rule adds the equation that it stands for. -/
theorem trueWith_setLocal_iff {l : Variable} {r : Referent} (hl : k.referent? l = none) :
    (k.setLocal l r).TrueWith s own ↔
      k.TrueWith s own ∧ (own l : Constant).Equals (r.under s) := by
  constructor
  · intro h
    have hself : (k.setLocal l r).referent? l = some r := VarMap.get?_insert_self _ _ _
    refine ⟨⟨h.known, fun {l' r'} hl' => h.bindings ?_⟩, h.bindings hself⟩
    exact VarMap.get?_insert_of_absent r hl hl'
  · rintro ⟨h, hr⟩
    refine ⟨h.known, fun {l' r'} hl' => ?_⟩
    rcases VarMap.get?_insert_cases hl' with ⟨rfl, rfl⟩ | hl'
    · exact hr
    · exact h.bindings hl'

section

variable (hU : Constant.Lawful U) (hk : k.Over U)

include hU hk

/-- Resolving a variable teaches that it equals the constant. -/
theorem resolve_teaches {v : Variable} {c : Constant} (hc : U c) (h : k.resolve v c = .ok o) :
    o.Teaches (U := U) k fun s _ => (s v : Constant).Equals c := by
  have hroot : ∃ r, Ends k.statuses v r := by
    rw [resolve] at h
    split at h
    · cases h
    · exact ⟨_, root_eq_ok_iff.mp ‹_›⟩
    · exact ⟨_, root_eq_ok_iff.mp ‹_›⟩
  obtain ⟨r, hr⟩ := hroot
  obtain ⟨o', ho', hadds⟩ := resolve_adds hU hk hr hc
  cases h.symm.trans ho'
  exact hadds.teaches

/-- Linking two variables teaches that they equal one another. -/
theorem link_teaches {v w : Variable} (h : k.link v w = .ok o) :
    o.Teaches (U := U) k fun s _ => (s v : Constant).Equals (s w) := by
  obtain ⟨rv, rw, hv, hw, _⟩ := link_cases h
  obtain ⟨o', ho', hadds⟩ := link_adds hU hk hv hw
  cases h.symm.trans ho'
  exact hadds.teaches

/-- Equating two referents that do not agree already teaches that they are equal. -/
theorem equate_teaches {p r : Referent} (hp : ∀ c, p = .const c → U c)
    (hr : ∀ c, r = .const c → U c) (hne : p.agrees r = .ok false) (h : k.equate p r = .ok o) :
    o.Teaches (U := U) k fun s _ => (p.under s).Equals (r.under s) := by
  cases p with
  | var v =>
    cases r with
    | var w => exact link_teaches hU hk h
    | const c => exact resolve_teaches hU hk (hr c rfl) h
  | const c =>
    cases r with
    | var w =>
      exact (resolve_teaches hU hk (hp c rfl) h).congr fun s own _ =>
        hU.equals_comm (s w).2 (hp c rfl)
    | const d =>
      cases h
      refine Outcome.teaches_clash fun s own _ hequals => ?_
      have hcd : c.agrees d = .ok true := hequals
      rw [Referent.agrees, hcd] at hne
      cases hne

/-- Assigning a referent teaches what the rule's own variable stands for, whether the variable
was bound before or not. -/
theorem assignReferent_teaches {l : Variable} {r : Referent} (hr : ∀ c, r = .const c → U c)
    (h : k.assignReferent l r = .ok o) :
    o.Teaches (U := U) k fun s own => (own l : Constant).Equals (r.under s) := by
  cases hl : k.referent? l with
  | none =>
    rw [((assignReferent_of_unbound_iff hl).mp h).2]
    exact Outcome.teaches_learned fun s own => trueWith_setLocal_iff hl
  | some p =>
    have hrU : ∀ s : Assignment U, U (r.under s) := by
      intro s
      cases r with
      | const c => exact hr c rfl
      | var v => exact (s v).2
    have hvalue : ∀ s own : Assignment U, k.TrueWith s own →
        ((p.under s).Equals (r.under s) ↔ (own l : Constant).Equals (r.under s)) :=
      fun s own htrue => (hU.equals_congr_left (own l).2 (hk.under_mem hl) (hrU s)
        (htrue.bindings hl)).symm
    refine Outcome.Teaches.congr ?_ hvalue
    simp only [assignReferent, hl] at h
    split at h
    · cases h
    · rename_i hagrees
      cases h
      refine Outcome.teaches_known fun s own _ => ?_
      cases p with
      | const c =>
        cases r with
        | const d => exact hagrees
        | var w => cases hagrees
      | var v =>
        cases r with
        | const d => cases hagrees
        | var w =>
          have hvw : v = w := by simpa [Referent.agrees] using hagrees
          rw [hvw]
          exact .refl _
    · rename_i hagrees
      exact equate_teaches hU hk (fun c hc => hk.locals (hc ▸ hl)) hr hagrees h

/-- Assigning a term teaches that the rule's own variable unifies with it. -/
theorem assign_teaches {l : Variable} {t : Term} (ht : t.Over U) (h : k.assign l t = .ok o) :
    o.Teaches (U := U) k fun s own => (Term.var l).Unify own s t := by
  cases t with
  | hole =>
    cases h
    exact Outcome.teaches_known fun s own _ => Term.unify_toTerm_hole (p := .var l) (own l).2
  | keyword a =>
    cases h
    exact Outcome.teaches_clash fun s own _ hunify => by
      cases Term.unify_keyword_right_iff.mp hunify
  | const c =>
    rw [assign] at h
    refine (assignReferent_teaches hU hk (fun d hd => ?_) h).congr fun s own _ =>
      (Term.unify_toTerm_iff (p := .var l) (r := .const c)).symm
    cases hd
    exact ht c rfl
  | var v =>
    rw [assign] at h
    exact (assignReferent_teaches hU hk (fun d hd => by cases hd) h).congr fun s own _ =>
      (Term.unify_toTerm_iff (p := .var l) (r := .var v)).symm

end

end Env

/-! ## Matching -/

section

variable {k : Env}

/-- Matching two terms teaches that they have equal instances. -/
theorem Term.matchGoal_teaches (hU : Constant.Lawful U) (hk : k.Over U) {a t : Term}
    {o : Outcome} (ha : a.Over U) (ht : t.Over U) (h : a.matchGoal k t = .ok o) :
    o.Teaches (U := U) k fun s own => a.Unify own s t := by
  cases a with
  | hole =>
    cases t with
    | keyword b =>
      cases h
      exact Outcome.teaches_clash fun s own _ hunify => by
        cases Term.unify_keyword_right_iff.mp hunify
    | const d =>
      cases h
      exact Outcome.teaches_known fun s own _ => Term.unify_hole_toTerm (r := .const d) (ht d rfl)
    | var v =>
      cases h
      exact Outcome.teaches_known fun s own _ => Term.unify_hole_toTerm (r := .var v) (s v).2
    | hole =>
      cases h
      exact Outcome.teaches_known fun s own _ => Term.unify_hole_hole hU
  | keyword b =>
    have hunify : ∀ s own : Assignment U, (Term.keyword b).Unify own s t ↔ t = .keyword b :=
      fun s own => Term.unify_keyword_iff
    cases t with
    | keyword b' =>
      simp only [Term.matchGoal] at h
      cases h
      split
      · rename_i hbb'
        exact Outcome.teaches_known fun s own _ => (hunify s own).mpr (by rw [hbb'])
      · rename_i hbb'
        refine Outcome.teaches_clash fun s own _ h => hbb' ?_
        cases (hunify s own).mp h
        rfl
    | const d => cases h; exact Outcome.teaches_clash fun s own _ h => by cases (hunify s own).mp h
    | var v => cases h; exact Outcome.teaches_clash fun s own _ h => by cases (hunify s own).mp h
    | hole => cases h; exact Outcome.teaches_clash fun s own _ h => by cases (hunify s own).mp h
  | const c =>
    have hc : U c := ha c rfl
    cases t with
    | keyword b =>
      cases h
      exact Outcome.teaches_clash fun s own _ hunify => by
        cases Term.unify_keyword_right_iff.mp hunify
    | const d =>
      exact (Outcome.teaches_ofComparison h).congr fun s own _ =>
        (Term.unify_toTerm_iff (p := .const c) (r := .const d)).symm
    | var v =>
      refine (Env.resolve_teaches hU hk hc h).congr fun s own _ => ?_
      rw [hU.equals_comm (s v).2 hc]
      exact (Term.unify_toTerm_iff (p := .const c) (r := .var v)).symm
    | hole =>
      cases h
      exact Outcome.teaches_known fun s own _ => Term.unify_toTerm_hole (p := .const c) hc
  | var l =>
    rw [Term.matchGoal_var] at h
    exact Env.assign_teaches hU hk ht h

/-- The assignments after matching terms pairwise are those before it under which the two
patterns have equal instances. -/
theorem Pattern.matchTerms_trueWith_iff (hU : Constant.Lawful U) {condition goal : Pattern}
    (hk : k.Over U) (hc : Pattern.Each (Term.Over U) condition)
    (hg : Pattern.Each (Term.Over U) goal) (hlength : condition.length = goal.length)
    {result : Option Env} (h : Pattern.matchTerms condition goal k = .ok result)
    (s own : Assignment U) :
    (∃ k', result = some k' ∧ k'.TrueWith s own) ↔
      k.TrueWith s own ∧ Pattern.Unify own s condition goal := by
  induction condition generalizing goal k with
  | nil =>
    obtain rfl : goal = [] := List.length_eq_zero_iff.mp hlength.symm
    simp only [Pattern.matchTerms] at h
    cases h
    constructor
    · rintro ⟨_, ⟨⟩, htrue⟩
      exact ⟨htrue, [], [], .nil, .nil, .nil⟩
    · exact fun htrue => ⟨k, rfl, htrue.1⟩
  | cons a as ih =>
    cases goal with
    | nil => cases hlength
    | cons t ts =>
      have ha := hc a List.mem_cons_self
      have ht := hg t List.mem_cons_self
      have has : Pattern.Each (Term.Over U) as := fun x hx => hc x (List.mem_cons_of_mem a hx)
      have hts : Pattern.Each (Term.Over U) ts := fun x hx => hg x (List.mem_cons_of_mem t hx)
      rw [Pattern.unify_iff_forall₂, List.forall₂_cons, ← Pattern.unify_iff_forall₂, ← and_assoc]
      rw [Pattern.matchTerms] at h
      split at h
      · cases h
      · rename_i o ho
        rw [← Term.matchGoal_teaches hU hk ha ht ho s own]
        split at h
        · rename_i hnone
          cases h
          simp [hnone]
        · rename_i k₁ hk₁
          have hstep := (Term.matchGoal_updates hk ha ht ho hk₁).evolves
          rw [ih (hstep.over hk) has hts (Nat.succ.inj hlength) h]
          simp [hk₁]

/-- The assignments after a match are those before it under which condition and goal have
equal instances, whatever the bindings were before. -/
theorem Pattern.matchGoal_trueWith_iff (hU : Constant.Lawful U) {condition goal : Pattern}
    (hk : k.Over U) (hc : Pattern.Each (Term.Over U) condition)
    (hg : Pattern.Each (Term.Over U) goal) {result : Option Env}
    (h : Pattern.matchGoal condition goal k = .ok result) (s own : Assignment U) :
    (∃ k', result = some k' ∧ k'.TrueWith s own) ↔
      k.TrueUnder s ∧ Pattern.Unify own s condition goal := by
  rw [Pattern.matchGoal] at h
  split at h
  · rename_i hlength
    rw [Pattern.matchTerms_trueWith_iff hU hk.startMatching hc hg hlength h s own,
      Env.trueWith_startMatching_iff]
  · rename_i hlength
    cases h
    constructor
    · rintro ⟨_, ⟨⟩, _⟩
    · rintro ⟨_, hunify⟩
      exact (hlength (Pattern.unify_iff_forall₂.mp hunify).length_eq).elim

/-- An environment that a match leads to is true under the assignments of the one before it
under which the goal has an instance that the condition has as well. -/
theorem Pattern.matchGoal_trueUnder_iff (hU : Constant.Lawful U) {condition goal : Pattern}
    (hk : k.Over U) (hc : Pattern.Each (Term.Over U) condition)
    (hg : Pattern.Each (Term.Over U) goal) {result : Option Env}
    (h : Pattern.matchGoal condition goal k = .ok result) (s : Assignment U) :
    (∃ k', result = some k' ∧ k'.TrueUnder s) ↔
      k.TrueUnder s ∧ ∃ own, Pattern.Unify own s condition goal := by
  have hmatch := Pattern.matchGoal_trueWith_iff hU hk hc hg h s
  constructor
  · rintro ⟨k', rfl, htrue⟩
    have hk' := Pattern.over_of_matchGoal hk hc hg h
    obtain ⟨hs, hunify⟩ := (hmatch _).mp ⟨k', rfl, htrue.trueWith_ownValues hU hk'⟩
    exact ⟨hs, _, hunify⟩
  · rintro ⟨hs, own, hunify⟩
    obtain ⟨k', hresult, htrue⟩ := (hmatch own).mpr ⟨hs, hunify⟩
    exact ⟨k', hresult, htrue.known⟩

/-- A match succeeds where condition and goal have equal instances under an assignment for which
the environment is true. -/
theorem Pattern.isSome_of_matchGoal_iff (hU : Constant.Lawful U) {condition goal : Pattern}
    (hk : k.WellFormed) (hkU : k.Over U) (hc : Pattern.Each (Term.Over U) condition)
    (hg : Pattern.Each (Term.Over U) goal) {result : Option Env}
    (h : Pattern.matchGoal condition goal k = .ok result) :
    result.isSome = true ↔
      ∃ s own : Assignment U, k.TrueUnder s ∧ Pattern.Unify own s condition goal := by
  have hmatch := Pattern.matchGoal_trueUnder_iff hU hkU hc hg h
  constructor
  · intro hsome
    obtain ⟨k', rfl⟩ := Option.isSome_iff_exists.mp hsome
    have hk' := Pattern.over_of_matchGoal hkU hc hg h
    obtain ⟨s, htrue⟩ := Env.exists_trueUnder hU hk'
      (Pattern.matchGoal_wellFormed h hk).1.grounded
    obtain ⟨hs, own, hunify⟩ := (hmatch s).mp ⟨k', rfl, htrue⟩
    exact ⟨_, own, hs, hunify⟩
  · rintro ⟨s, own, hs, hunify⟩
    obtain ⟨k', rfl, _⟩ := (hmatch s).mpr ⟨hs, own, hunify⟩
    rfl

/-- A variable of the condition is bound to what the goal has in its positions, up to what is
known after the match. -/
theorem Pattern.equals_of_matchGoal (hU : Constant.Lawful U) {condition goal : Pattern}
    (hkU : k.Over U) (hc : Pattern.Each (Term.Over U) condition)
    (hg : Pattern.Each (Term.Over U) goal) {k' : Env}
    (h : Pattern.matchGoal condition goal k = .ok (some k')) {s : Assignment U}
    (hs : k'.TrueUnder s) {i : Nat} {l : Variable} {t : Term}
    (hl : condition[i]? = some (.var l)) (ht : goal[i]? = some t) (hne : t ≠ .hole) :
    ∃ r p, k'.referent? l = some r ∧ t = Referent.toTerm p ∧ (r.under s).Equals (p.under s) := by
  have hk' := Pattern.over_of_matchGoal hkU hc hg h
  have htrue := hs.trueWith_ownValues hU hk'
  obtain ⟨_, hunify⟩ := (Pattern.matchGoal_trueWith_iff hU hkU hc hg h s _).mp ⟨k', rfl, htrue⟩
  obtain ⟨hlength, hunify⟩ := List.forall₂_iff_get.mp (Pattern.unify_iff_forall₂.mp hunify)
  have hmatch : Pattern.matchTerms condition goal k.startMatching = .ok (some k') := by
    rwa [Pattern.matchGoal, if_pos hlength] at h
  obtain ⟨r, p, hr, rfl⟩ := Pattern.exists_referent_of_matchTerms hmatch hl ht hne
  refine ⟨r, p, hr, rfl, ?_⟩
  obtain ⟨hi, hvar⟩ := List.getElem?_eq_some_iff.mp hl
  obtain ⟨hj, hterm⟩ := List.getElem?_eq_some_iff.mp ht
  have hat := hunify i hi hj
  rw [List.get_eq_getElem, List.get_eq_getElem, hvar, hterm] at hat
  have hown := Term.unify_toTerm_iff (p := Referent.var l) (r := p) |>.mp hat
  have hpU : U (p.under s) := by
    cases p with
    | const c => exact hg _ (List.mem_of_getElem? ht) c rfl
    | var v => exact (s v).2
  exact (hU.equals_congr_left (Subtype.prop _) (hk'.under_mem hr) hpU (htrue.bindings hr)).mp hown

/-- Pairs in another order are made of patterns in another order. -/
theorem Pattern.perm_of_zip_perm {condition goal condition' goal' : Pattern}
    (hlength : condition.length = goal.length) (hlength' : condition'.length = goal'.length)
    (hperm : (condition'.zip goal').Perm (condition.zip goal)) :
    condition'.Perm condition ∧ goal'.Perm goal := by
  constructor
  · rw [← List.map_fst_zip (Nat.le_of_eq hlength), ← List.map_fst_zip (Nat.le_of_eq hlength')]
    exact hperm.map Prod.fst
  · rw [← List.map_snd_zip (Nat.le_of_eq hlength.symm),
      ← List.map_snd_zip (Nat.le_of_eq hlength'.symm)]
    exact hperm.map Prod.snd

/-- Which patterns have equal instances depends on the pairs of terms, not on their order. -/
theorem Pattern.unify_perm {own s : Assignment U} {condition goal condition' goal' : Pattern}
    (hlength : condition.length = goal.length) (hlength' : condition'.length = goal'.length)
    (hperm : (condition'.zip goal').Perm (condition.zip goal)) :
    Pattern.Unify own s condition' goal' ↔ Pattern.Unify own s condition goal := by
  simp only [Pattern.unify_iff_forall₂, List.forall₂_iff_zip, hlength, hlength', true_and,
    hperm.mem_iff]

/-- A match without faults finds the most general instance, and finds it in any order of the
positions: it declares nothing, it succeeds where condition and goal have equal instances under
an assignment that the environment allows, it allows just the assignments for which they have
some, and it binds the variables of the condition to what the goal has in their positions. -/
theorem Pattern.matchGoal_mostGeneral (hU : Constant.Lawful U) {condition goal : Pattern}
    (hk : k.WellFormed) (hkU : k.Over U) (hc : Pattern.Each (Term.Over U) condition)
    (hg : Pattern.Each (Term.Within U k) goal) :
    ∃ result, Pattern.matchGoal condition goal k = .ok result ∧
      (result.isSome = true ↔ condition.length = goal.length ∧
        ∃ s own : Assignment U, k.TrueUnder s ∧ Pattern.Unify own s condition goal) ∧
      (∀ k', result = some k' →
        (∀ v, k'.declares v = k.declares v) ∧
        (∀ s : Assignment U,
          k'.TrueUnder s ↔ k.TrueUnder s ∧ ∃ own, Pattern.Unify own s condition goal) ∧
        ∀ s : Assignment U, k'.TrueUnder s → ∀ (i : Nat) (l : Variable) (t : Term),
          condition[i]? = some (.var l) → goal[i]? = some t → t ≠ .hole →
            ∃ r p, k'.referent? l = some r ∧ t = Referent.toTerm p ∧
              (r.under s).Equals (p.under s)) ∧
      ∀ condition' goal' : Pattern, condition.length = goal.length →
        condition'.length = goal'.length → (condition'.zip goal').Perm (condition.zip goal) →
          ∃ result', Pattern.matchGoal condition' goal' k = .ok result' ∧
            result'.isSome = result.isSome ∧
            ∀ s : Assignment U, (∃ k', result' = some k' ∧ k'.TrueUnder s) ↔
              ∃ k', result = some k' ∧ k'.TrueUnder s := by
  have hgU : Pattern.Each (Term.Over U) goal := fun t ht => (hg t ht).1
  obtain ⟨result, h⟩ := Pattern.matchGoal_eq_ok_of_comparable hk hkU hU.comparable hc hg
  have hsome := Pattern.isSome_of_matchGoal_iff hU hk hkU hc hgU h
  refine ⟨result, h, ?_, ?_, ?_⟩
  · rw [hsome]
    refine ⟨fun hexists => ⟨?_, hexists⟩, fun hexists => hexists.2⟩
    obtain ⟨s, own, _, hunify⟩ := hexists
    exact (Pattern.unify_iff_forall₂.mp hunify).length_eq
  · rintro k' rfl
    refine ⟨Pattern.declares_of_matchGoal h, fun s => ?_, fun s hs i l t =>
      Pattern.equals_of_matchGoal hU hkU hc hgU h hs⟩
    rw [← Pattern.matchGoal_trueUnder_iff hU hkU hc hgU h s]
    simp
  · intro condition' goal' hlength hlength' hperm
    obtain ⟨hconditions, hgoals⟩ := Pattern.perm_of_zip_perm hlength hlength' hperm
    have hc' : Pattern.Each (Term.Over U) condition' :=
      fun t ht => hc t (hconditions.mem_iff.mp ht)
    have hg' : Pattern.Each (Term.Within U k) goal' := fun t ht => hg t (hgoals.mem_iff.mp ht)
    have hgU' : Pattern.Each (Term.Over U) goal' := fun t ht => (hg' t ht).1
    obtain ⟨result', h'⟩ :=
      Pattern.matchGoal_eq_ok_of_comparable hk hkU hU.comparable hc' hg'
    refine ⟨result', h', ?_, fun s => ?_⟩
    · rw [Bool.eq_iff_iff, hsome, Pattern.isSome_of_matchGoal_iff hU hk hkU hc' hgU' h']
      simp only [Pattern.unify_perm hlength hlength' hperm]
    · rw [Pattern.matchGoal_trueUnder_iff hU hkU hc hgU h,
        Pattern.matchGoal_trueUnder_iff hU hkU hc' hgU' h']
      simp only [Pattern.unify_perm hlength hlength' hperm]

end

namespace Sample

/-- Two variables of a query, of which the second one is linked to the first. -/
def linkedPair : Env :=
  Env.setStatus (.declaring (["q", "r"].map .named)) (.named "r") (.linked (.named "q"))

/-- Both of them stand for a text. -/
def pairRead : Env :=
  (linkedPair.setStatus (.named "q") (.resolved (.value (.caseless 0 "Ab")))).startMatching.setLocal
    (.named "x") (.var (.named "q"))

/-- The same own variable of a rule in all positions. -/
def allTheSame : Pattern :=
  [.var (.named "x"), .var (.named "x"), .var (.named "x"), .var (.named "x")]

/-- The pair, a text, and a hole. -/
def pairAndText : Pattern :=
  [.var (.named "q"), .const (.value (.caseless 0 "Ab")), .hole, .var (.named "r")]

/-- The pair stands for the text, and in the opposite order of the positions the match learns the
same. -/
theorem pairRead_mostGeneral :
    Pattern.matchGoal allTheSame pairAndText linkedPair = .ok (some pairRead) ∧
    (∀ s : Assignment CaselessWord, pairRead.TrueUnder s ↔
      linkedPair.TrueUnder s ∧ ∃ own, Pattern.Unify own s allTheSame pairAndText) ∧
    ∃ k', Pattern.matchGoal allTheSame pairAndText.reverse linkedPair = .ok (some k') ∧
      ∀ s : Assignment CaselessWord, k'.TrueUnder s ↔ pairRead.TrueUnder s := by
  have hlink : Env.Update CaselessWord (.declaring (["q", "r"].map .named)) linkedPair :=
    .linked (r := ⟨.named "q", none⟩) (by decide) (.unresolved (by decide)) (by decide)
  have hk : linkedPair.WellFormed := hlink.wellFormed (Env.wellFormed_declaring ["q", "r"])
  have hkU : linkedPair.Over CaselessWord := hlink.over (Env.over_declaring _ _)
  have hc : Pattern.Each (Term.Over CaselessWord) allTheSame := by
    simp [allTheSame, Pattern.Each, Term.Over]
  have hq : linkedPair.declares (.named "q") = true := by decide
  have hr : linkedPair.declares (.named "r") = true := by decide
  have hg : Pattern.Each (Term.Within CaselessWord linkedPair) pairAndText := by
    simp [pairAndText, Pattern.Each, Term.Within, Term.Over, Term.Vars, hq, hr,
      CaselessWord.text]
  have hmatch : Pattern.matchGoal allTheSame pairAndText linkedPair = .ok (some pairRead) := by
    decide
  obtain ⟨result, hresult, _, hgeneral, horder⟩ :=
    Pattern.matchGoal_mostGeneral lawful_caselessWord hk hkU hc hg
  rw [hmatch] at hresult
  cases hresult
  refine ⟨hmatch, (hgeneral pairRead rfl).2.1, ?_⟩
  obtain ⟨result', hmatch', hsome, hsame⟩ :=
    horder allTheSame pairAndText.reverse rfl rfl
      (List.reverse_perm (allTheSame.zip pairAndText))
  obtain ⟨k', rfl⟩ := Option.isSome_iff_exists.mp hsome
  exact ⟨k', hmatch', fun s => by simpa using hsame s⟩

end Sample

end Deduction
