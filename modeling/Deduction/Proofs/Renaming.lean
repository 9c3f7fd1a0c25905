import Deduction.Proofs.Alike
import Deduction.Proofs.Flattening
import Mathlib.Data.Set.Function

/-!
# Renaming the variables of a rule

A rule may be written with other names for its variables, as long as different variables get
different names. Its condition is then matched and its phrases are flattened with the same
outcome, in environments that are alike: the variables are bound alike under their old and
their new names, and where one of them is issued only the name that goes with its number differs.
-/

namespace Deduction

/-! ## Renaming -/

/-- A named variable under its new name; issued variables stay as they are. -/
def Variable.rename (σ : String → String) : Variable → Variable
  | named n => named (σ n)
  | temporary n i => temporary n i
  | renamed n i => renamed n i

/-- The term with the new name of its variable. -/
def Term.rename (σ : String → String) : Term → Term
  | var v => var (v.rename σ)
  | keyword a => keyword a
  | const c => const c
  | hole => hole

/-- The pattern with the new names of its variables. -/
def Pattern.rename (σ : String → String) (g : Pattern) : Pattern := g.map (Term.rename σ)

namespace Expr

mutual

/-- The expression with the new names of its variables. -/
def rename (σ : String → String) : Expr → Expr
  | term t => term (t.rename σ)
  | phrase es => phrase (renameAll σ es)

/-- The listed expressions with the new names of their variables. -/
def renameAll (σ : String → String) : List Expr → List Expr
  | [] => []
  | e :: es => e.rename σ :: renameAll σ es

end

end Expr

/-- The goal with the new names of its variables. -/
def Goal.rename (σ : String → String) : Goal → Goal
  | truth => truth
  | falsity => falsity
  | and p q => and (p.rename σ) (q.rename σ)
  | or p q => or (p.rename σ) (q.rename σ)
  | not p => not (p.rename σ)
  | apply g => apply (Pattern.rename σ g)
  | call es => call (Expr.renameAll σ es)
  | host h => host h

/-- The rule with the new names of its variables in condition and body. -/
def Rule.rename (σ : String → String) (r : Rule) : Rule :=
  ⟨Pattern.rename σ r.condition, r.body.rename σ⟩

/-- The variable is written by one of the given names. -/
def Variable.Named (N : Set String) (v : Variable) : Prop := ∃ n ∈ N, v = .named n

/-! ## Learning -/

/-- Attempts that lead to the same, with related environments where something is learned. -/
inductive Outcome.Alike (R : Env → Env → Prop) : Outcome → Outcome → Prop
  | clash : Alike R .clash .clash
  | known : Alike R .known .known
  | learned {k k' : Env} (h : R k k') : Alike R (.learned k) (.learned k')

/-- After like outcomes both attempts have clashed, or both go on in related environments. -/
theorem Outcome.Alike.after_cases {R : Env → Env → Prop} {o o' : Outcome} {k k' : Env}
    (h : o.Alike R o') (hk : R k k') : o.after k = none ∧ o'.after k' = none ∨
      ∃ a b, o.after k = some a ∧ o'.after k' = some b ∧ R a b := by
  cases h with
  | clash => exact Or.inl ⟨rfl, rfl⟩
  | known => exact Or.inr ⟨_, _, rfl, rfl, hk⟩
  | learned h => exact Or.inr ⟨_, _, rfl, rfl, h⟩

/-- The same comparison leads to the same outcome, or to the same fault. -/
theorem Outcome.concur_ofComparison (R : Env → Env → Prop) (x : Comparison) :
    Concur (Outcome.Alike R) (Outcome.ofComparison x) (Outcome.ofComparison x) := by
  cases x with
  | error cause => exact .error _
  | ok same =>
    cases same with
    | true => exact .ok .known
    | false => exact .ok .clash

/-- Under their old and their new names variables are both unbound, or bound to like referents. -/
def Env.BoundAlike (base : Nat) (σ : String → String) (N : Set String) (m m' : VarMap Referent) :
    Prop :=
  ∀ n ∈ N, m.get? (.named n) = none ∧ m'.get? (.named (σ n)) = none ∨
    ∃ r r', m.get? (.named n) = some r ∧ m'.get? (.named (σ n)) = some r' ∧ r.Alike base r'

/-- The environments are alike, in the scope of a rule whose named variables, under their old
and their new names, are bound alike. -/
structure Env.AlikeIn (base : Nat) (σ : String → String) (N : Set String) (k k' : Env) : Prop
    extends Env.Alike base k k' where
  rule : k.scope = .rule
  rule' : k'.scope = .rule
  bound : BoundAlike base σ N k.locals k'.locals

section

variable {base : Nat} {σ : String → String} {N : Set String} {k k' : Env} {v v' w w' : Variable}

namespace Env

/-- Environments that are alike stay so when like statuses are placed at the ends of chains. -/
theorem AlikeIn.setStatus {s s' : Status} (h : k.AlikeIn base σ N k')
    (hv : k.statuses.get? v = some .unresolved) (hv' : k'.statuses.get? v' = some .unresolved)
    (hvv' : v.Alike base v') (hss' : s.Alike base s')
    (hleft : Update (fun _ => True) k (k.setStatus v s))
    (hright : Update (fun _ => True) k' (k'.setStatus v' s')) :
    (k.setStatus v s).AlikeIn base σ N (k'.setStatus v' s') :=
  { h with
    toAlike := h.toAlike.setStatus hv hv' hvv' hss' (hleft.wellFormed h.left)
      (hright.wellFormed h.right) }

/-- Counterparts are resolved alike. -/
theorem AlikeIn.concur_resolve (h : k.AlikeIn base σ N k') (hv : k.declares v = true)
    (hv' : k'.declares v' = true) (hvv' : v.Alike base v') (c : Constant) :
    Concur (Outcome.Alike (AlikeIn base σ N)) (k.resolve v c) (k'.resolve v' c) := by
  obtain ⟨⟨last, value⟩, ⟨last', value'⟩, hr, hr', hlast, hvalue⟩ := h.ends hv hv' hvv'
  obtain rfl : value' = value := hvalue
  rw [resolve, resolve, hr.root_eq, hr'.root_eq]
  cases value' with
  | some d => exact Outcome.concur_ofComparison _ _
  | none =>
    have hu := hr.get?_last
    have hu' := hr'.get?_last
    exact .ok (.learned (h.setStatus hu hu' hlast (.resolved c) (.resolved hu trivial)
      (.resolved hu' trivial)))

/-- Counterparts are linked alike. -/
theorem AlikeIn.concur_link (h : k.AlikeIn base σ N k') (hv : k.declares v = true)
    (hv' : k'.declares v' = true) (hvv' : v.Alike base v') (hw : k.declares w = true)
    (hw' : k'.declares w' = true) (hww' : w.Alike base w') :
    Concur (Outcome.Alike (AlikeIn base σ N)) (k.link v w) (k'.link v' w') := by
  obtain ⟨rv, rv', hrv, hrv', hlastv, hvaluev⟩ := h.ends hv hv' hvv'
  obtain ⟨rw, rw', hrw, hrw', hlastw, hvaluew⟩ := h.ends hw hw' hww'
  have hsame : rv.last = rw.last ↔ rv'.last = rw'.last :=
    h.eq_iff hrv.ends_last.contains hrw.ends_last.contains hrv'.ends_last.contains
      hrw'.ends_last.contains hlastv hlastw
  rw [link, link, hrv.root_eq, hrv'.root_eq, hrw.root_eq, hrw'.root_eq]
  by_cases hlast : rv.last = rw.last
  · simp only [hlast, hsame.mp hlast, if_true]
    exact .ok .known
  · have hlast' : rv'.last ≠ rw'.last := fun heq => hlast (hsame.mpr heq)
    simp only [hlast, hlast', if_false, hvaluev, hvaluew]
    cases hcv : rv.value with
    | none =>
      have hu := hrv.get?_last_unresolved hcv
      have hu' := hrv'.get?_last_unresolved (hvaluev.trans hcv)
      exact .ok (.learned (h.setStatus hu hu' hlastv (.linked hlastw)
        (.linked hu hrw.ends_last hlast) (.linked hu' hrw'.ends_last hlast')))
    | some c =>
      cases hcw : rw.value with
      | some d => exact Outcome.concur_ofComparison _ _
      | none =>
        have hu := hrw.get?_last_unresolved hcw
        have hu' := hrw'.get?_last_unresolved (hvaluew.trans hcw)
        exact .ok (.learned (h.setStatus hu hu' hlastw (.resolved c) (.resolved hu trivial)
          (.resolved hu' trivial)))

/-- Like referents are equated alike. -/
theorem AlikeIn.concur_equate (h : k.AlikeIn base σ N k') {p p' r r' : Referent}
    (hp : p.Within (fun _ => True) k) (hp' : p'.Within (fun _ => True) k')
    (hr : r.Within (fun _ => True) k) (hr' : r'.Within (fun _ => True) k')
    (hpp' : p.Alike base p') (hrr' : r.Alike base r') :
    Concur (Outcome.Alike (AlikeIn base σ N)) (k.equate p r) (k'.equate p' r') := by
  cases hpp' with
  | var hv =>
    cases hrr' with
    | var hw => exact h.concur_link hp hp' hv hr hr' hw
    | const c => exact h.concur_resolve hp hp' hv c
  | const c =>
    cases hrr' with
    | var hw => exact h.concur_resolve hr hr' hw c
    | const d => exact .ok .clash

/-- Like referents compare alike. -/
theorem Alike.agrees_eq (h : k.Alike base k') {p p' r r' : Referent}
    (hp : p.Within (fun _ => True) k) (hp' : p'.Within (fun _ => True) k')
    (hr : r.Within (fun _ => True) k) (hr' : r'.Within (fun _ => True) k')
    (hpp' : p.Alike base p') (hrr' : r.Alike base r') : p'.agrees r' = p.agrees r := by
  cases hpp' with
  | var hv =>
    cases hrr' with
    | var hw =>
      have hsame := h.eq_iff hp hr hp' hr' hv hw
      simp only [Referent.agrees, Except.ok.injEq]
      exact decide_eq_decide.mpr hsame.symm
    | const c => rfl
  | const c => cases hrr' <;> rfl

/-- A variable of the rule is bound to like referents; the names of the others are different. -/
theorem BoundAlike.insert {m m' : VarMap Referent} (h : BoundAlike base σ N m m')
    (hσ : Set.InjOn σ N) {n : String} (hn : n ∈ N) {r r' : Referent} (hrr' : r.Alike base r') :
    BoundAlike base σ N (m.insert (.named n) r) (m'.insert (.named (σ n)) r') := by
  intro n' hn'
  by_cases hsame : n' = n
  · subst hsame
    exact Or.inr ⟨r, r', VarMap.get?_insert_self _ _ _, VarMap.get?_insert_self _ _ _, hrr'⟩
  · have hne : Variable.named n' ≠ .named n := fun heq => hsame (Variable.named.inj heq)
    have hne' : Variable.named (σ n') ≠ .named (σ n) := fun heq =>
      hsame (hσ hn' hn (Variable.named.inj heq))
    rw [VarMap.get?_insert_of_ne _ _ hne, VarMap.get?_insert_of_ne _ _ hne']
    exact h n' hn'

/-- A variable of the rule and its new name are both unbound, or bound to like referents. -/
theorem AlikeIn.referent?_cases (h : k.AlikeIn base σ N k') {n : String} (hn : n ∈ N) :
    k.referent? (.named n) = none ∧ k'.referent? (.named (σ n)) = none ∨
      ∃ r r', k.referent? (.named n) = some r ∧ k'.referent? (.named (σ n)) = some r' ∧
        r.Alike base r' :=
  h.bound n hn

/-- Like referents are assigned alike to a variable of the rule and to its new name. -/
theorem AlikeIn.concur_assignReferent (h : k.AlikeIn base σ N k') (hσ : Set.InjOn σ N)
    {n : String} (hn : n ∈ N) {r r' : Referent} (hrr' : r.Alike base r')
    (hr : r.Within (fun _ => True) k) (hr' : r'.Within (fun _ => True) k') :
    Concur (Outcome.Alike (AlikeIn base σ N)) (k.assignReferent (.named n) r)
      (k'.assignReferent (.named (σ n)) r') := by
  rcases h.referent?_cases hn with ⟨hp, hp'⟩ | ⟨p, p', hp, hp', hpp'⟩
  · have hleft : Update (fun _ => True) k (k.setLocal (.named n) r) := .bound hp hr
    have hright : Update (fun _ => True) k' (k'.setLocal (.named (σ n)) r') := .bound hp' hr'
    have hlearned : (k.setLocal (.named n) r).AlikeIn base σ N (k'.setLocal (.named (σ n)) r') :=
      { h with
        left := hleft.wellFormed h.left
        right := hright.wellFormed h.right
        bound := h.bound.insert hσ hn hrr' }
    simp only [assignReferent, hp, hp']
    cases hrr' with
    | const c => exact .ok (.learned hlearned)
    | @var v w hvw =>
      have hv : k.declares v = true := hr
      have hw : k'.declares w = true := hr'
      simp only [hv, hw, if_true]
      exact .ok (.learned hlearned)
  · have hpin := h.left.referent_within k.over_univ hp
    have hpin' := h.right.referent_within k'.over_univ hp'
    simp only [assignReferent, hp, hp', h.agrees_eq hpin hpin' hr hr' hpp' hrr']
    cases p.agrees r with
    | error cause => exact .error _
    | ok same =>
      cases same with
      | true => exact .ok .known
      | false => exact h.concur_equate hpin hpin' hr hr' hpp' hrr'

end Env

/-! ## Matching -/

/-- A rule's condition and its renamed variant are matched alike against like terms. -/
theorem Term.concur_matchGoal (h : k.AlikeIn base σ N k') (hσ : Set.InjOn σ N) {s t t' : Term}
    (hs : s.Vars (Variable.Named N)) (htt' : t.Alike base t')
    (ht : t.Vars fun v => k.declares v = true) (ht' : t'.Vars fun v => k'.declares v = true) :
    Concur (Outcome.Alike (Env.AlikeIn base σ N)) (s.matchGoal k t)
      ((s.rename σ).matchGoal k' t') := by
  cases s with
  | hole =>
    cases htt' with
    | keyword a => exact .ok .clash
    | const c => exact .ok .known
    | var hv => exact .ok .known
    | hole => exact .ok .known
  | keyword a =>
    cases htt' with
    | keyword b =>
      simp only [Term.rename, Term.matchGoal]
      split
      · exact .ok .known
      · exact .ok .clash
    | const c => exact .ok .clash
    | var hv => exact .ok .clash
    | hole => exact .ok .clash
  | const c =>
    cases htt' with
    | keyword b => exact .ok .clash
    | const d => exact Outcome.concur_ofComparison _ _
    | var hv => exact h.concur_resolve (ht _ rfl) (ht' _ rfl) hv c
    | hole => exact .ok .known
  | var l =>
    obtain ⟨n, hn, rfl⟩ := hs l rfl
    simp only [Term.rename, Variable.rename, Term.matchGoal_var]
    cases htt' with
    | keyword b => exact .ok .clash
    | const d =>
      have hd : (Referent.const d).Alike base (.const d) := .const d
      exact h.concur_assignReferent hσ hn hd trivial trivial
    | @var v w hv =>
      have hvw : (Referent.var v).Alike base (.var w) := .var hv
      exact h.concur_assignReferent hσ hn hvw (ht _ rfl) (ht' _ rfl)
    | hole => exact .ok .known

/-- Matching a term keeps variables declared. -/
theorem Term.declares_of_matchGoal {s t : Term} {o : Outcome} (h : s.matchGoal k t = .ok o)
    (ho : o.after k = some k') (hk : k.WellFormed) :
    ∀ v, k.declares v = true → k'.declares v = true := by
  have hupdates := Term.matchGoal_updates k.over_univ (fun _ _ => trivial) (fun _ _ => trivial) h ho
  exact fun v => (hupdates.evolves.wellFormed hk).2.declared

/-- A condition and its renamed variant are matched alike, position by position. -/
theorem Pattern.concur_matchTerms (hσ : Set.InjOn σ N) {condition g g' : Pattern}
    (h : k.AlikeIn base σ N k') (hcondition : Pattern.Each (Term.Vars (Variable.Named N)) condition)
    (hgg' : List.Forall₂ (Term.Alike base) g g')
    (hg : Pattern.Each (Term.Vars fun v => k.declares v = true) g)
    (hg' : Pattern.Each (Term.Vars fun v => k'.declares v = true) g') :
    Concur (Option.Rel (Env.AlikeIn base σ N)) (Pattern.matchTerms condition g k)
      (Pattern.matchTerms (Pattern.rename σ condition) g' k') := by
  induction condition generalizing g g' k k' with
  | nil => simpa only [Pattern.rename, List.map_nil, Pattern.matchTerms] using .ok (.some h)
  | cons s ss ih =>
    cases hgg' with
    | nil => exact .ok (.some h)
    | @cons t t' ts ts' htt' hts =>
      have hterm := Term.concur_matchGoal h hσ (hcondition s List.mem_cons_self) htt'
        (hg t List.mem_cons_self) (hg' t' List.mem_cons_self)
      rw [Pattern.rename, List.map_cons, Pattern.matchTerms, Pattern.matchTerms]
      rcases hterm.cases with ⟨o, o', ho, ho', hoo'⟩ | ⟨f, hf, hf'⟩
      · rcases hoo'.after_cases h with ⟨ha, hb⟩ | ⟨a, b, ha, hb, hab⟩
        · simp only [ho, ho', ha, hb]
          exact .ok .none
        · simp only [ho, ho', ha, hb]
          have hleft := Term.declares_of_matchGoal ho ha h.left
          have hright := Term.declares_of_matchGoal ho' hb h.right
          exact ih hab (fun x hx => hcondition x (List.mem_cons_of_mem s hx)) hts
            (fun x hx v hv => hleft v (hg x (List.mem_cons_of_mem t hx) v hv))
            (fun x hx v hv => hright v (hg' x (List.mem_cons_of_mem t' hx) v hv))
      · simp only [hf, hf']
        exact .error f

/-- A condition and its renamed variant are matched alike. -/
theorem Pattern.concur_matchGoal (hσ : Set.InjOn σ N) {condition g g' : Pattern}
    (h : k.Alike base k') (hcondition : Pattern.Each (Term.Vars (Variable.Named N)) condition)
    (hgg' : List.Forall₂ (Term.Alike base) g g')
    (hg : Pattern.Each (Term.Vars fun v => k.declares v = true) g)
    (hg' : Pattern.Each (Term.Vars fun v => k'.declares v = true) g') :
    Concur (Option.Rel (Env.AlikeIn base σ N)) (Pattern.matchGoal condition g k)
      (Pattern.matchGoal (Pattern.rename σ condition) g' k') := by
  have hstart : k.startMatching.AlikeIn base σ N k'.startMatching := { h with
    left := h.left.startMatching
    right := h.right.startMatching
    rule := rfl
    rule' := rfl
    bound := fun n _ => Or.inl ⟨rfl, rfl⟩ }
  have hlength : (Pattern.rename σ condition).length = condition.length := List.length_map _
  rw [Pattern.matchGoal, Pattern.matchGoal, hlength, hgg'.length_eq]
  split
  · exact Pattern.concur_matchTerms hσ hstart hcondition hgg' hg hg'
  · exact .ok .none

/-! ## Flattening -/

/-- A variable of the rule stands for like referents, and is first issued if it is unbound. -/
theorem Env.AlikeIn.expandVariable (h : k.AlikeIn base σ N k') (hσ : Set.InjOn σ N) {n : String}
    (hn : n ∈ N) : ∃ r r' k₁ k₁', k.expandVariable (.named n) = .ok (r, k₁) ∧
      k'.expandVariable (.named (σ n)) = .ok (r', k₁') ∧ k₁.AlikeIn base σ N k₁' ∧
      r.Alike base r' := by
  have hexpand : ∀ {k : Env} {n}, k.scope = .rule →
      k.expandVariable (.named n) = .ok (k.declareLocal (.named n)) := by
    intro k n hk
    simp [Env.expandVariable, hk, Variable.IsIssued, Variable.id?]
  rw [hexpand h.rule, hexpand h.rule']
  rcases h.referent?_cases hn with ⟨hp, hp'⟩ | ⟨p, p', hp, hp', hpp'⟩
  · have hleft : Update (fun _ => True) k (k.declareLocal (.named n)).2 := .renamed hp
    have hright : Update (fun _ => True) k' (k'.declareLocal (.named (σ n))).2 := .renamed hp'
    have halike : (Variable.renamed n k.next).Alike base (.renamed (σ n) k'.next) := by
      rw [h.next]
      exact .renamed h.base_le
    have hwf := hleft.wellFormed h.left
    have hwf' := hright.wellFormed h.right
    rw [declareLocal_of_unbound hp] at hwf ⊢
    rw [declareLocal_of_unbound hp'] at hwf' ⊢
    refine ⟨_, _, _, _, rfl, rfl, ?_, .var halike⟩
    exact { h with
      toAlike := h.toAlike.issue rfl halike hwf hwf'
      bound := h.bound.insert hσ hn (.var halike) }
  · rw [declareLocal_of_bound hp, declareLocal_of_bound hp']
    exact ⟨p, p', k, k', rfl, rfl, h, hpp'⟩

/-- Like environments issue temporaries that correspond to one another. -/
theorem Env.AlikeIn.issueTemporary (h : k.AlikeIn base σ N k') (stem : String) :
    (k.issueTemporary stem).1.Alike base (k'.issueTemporary stem).1 ∧
      (k.issueTemporary stem).2.AlikeIn base σ N (k'.issueTemporary stem).2 := by
  have hleft : Update (fun _ => True) k (k.issueTemporary stem).2 := .issued
  have hright : Update (fun _ => True) k' (k'.issueTemporary stem).2 := .issued
  have halike : (Variable.temporary stem k.next).Alike base (.temporary stem k'.next) := by
    rw [h.next]
    exact .refl _
  refine ⟨halike, { h with toAlike := ?_ }⟩
  exact h.toAlike.issue rfl halike (hleft.wellFormed h.left) (hright.wellFormed h.right)

namespace Expr

mutual

/-- An expression of the rule and its renamed variant are flattened alike. -/
theorem flatten_rename (hσ : Set.InjOn σ N) : ∀ {e : Expr} {k k' : Env},
    k.AlikeIn base σ N k' → e.Each (Term.Vars (Variable.Named N)) →
    ∃ x x', e.flatten k = .ok x ∧ (e.rename σ).flatten k' = .ok x' ∧
      x.env.AlikeIn base σ N x'.env ∧ x.term.Alike base x'.term ∧
      x.prelude.Shaped (List.Forall₂ (Term.Alike base)) x'.prelude
  | .term t, k, k', hk, ht => by
    cases t with
    | var v =>
      obtain ⟨n, hn, rfl⟩ := ht v rfl
      obtain ⟨r, r', k₁, k₁', h, h', hk₁, hrr'⟩ := hk.expandVariable hσ hn
      refine ⟨⟨r.toTerm, .empty, k₁⟩, ⟨r'.toTerm, .empty, k₁'⟩, ?_, ?_, hk₁, hrr'.toTerm, .empty⟩
      · rw [flatten, h]
      · rw [rename, Term.rename, Variable.rename, flatten, h']
    | keyword a => exact ⟨_, _, by rw [flatten]; simp, by rw [rename, Term.rename, flatten]; simp,
        hk, .keyword a, .empty⟩
    | const c => exact ⟨_, _, by rw [flatten]; simp, by rw [rename, Term.rename, flatten]; simp,
        hk, .const c, .empty⟩
    | hole => exact ⟨_, _, by rw [flatten]; simp, by rw [rename, Term.rename, flatten]; simp,
        hk, .hole, .empty⟩
  | .phrase es, k, k', hk, hes => by
    obtain ⟨x, x', h, h', hx, hterms, hprelude⟩ := flattenAll_rename hσ .empty hk hes
    obtain ⟨htemporary, hissued⟩ := hx.issueTemporary phraseStem
    refine ⟨_, _, by rw [flatten, h], by rw [rename, flatten, h'], hissued, .var htemporary, ?_⟩
    exact hprelude.conj (.define (.cons (.var htemporary) (.cons (.keyword _) hterms)))

/-- Listed expressions and their renamed variants are flattened alike. -/
theorem flattenAll_rename (hσ : Set.InjOn σ N) : ∀ {es : List Expr} {before before' : Prelude}
    {k k' : Env}, before.Shaped (List.Forall₂ (Term.Alike base)) before' →
    k.AlikeIn base σ N k' → EachOf (Term.Vars (Variable.Named N)) es →
    ∃ x x', flattenAll es before k = .ok x ∧ flattenAll (renameAll σ es) before' k' = .ok x' ∧
      x.env.AlikeIn base σ N x'.env ∧ List.Forall₂ (Term.Alike base) x.terms x'.terms ∧
      x.prelude.Shaped (List.Forall₂ (Term.Alike base)) x'.prelude
  | [], before, before', k, k', hbefore, hk, _ =>
    ⟨⟨[], before, k⟩, ⟨[], before', k'⟩, by rw [flattenAll], by rw [renameAll, flattenAll], hk,
      .nil, hbefore⟩
  | e :: es, before, before', k, k', hbefore, hk, hes => by
    obtain ⟨x, x', h, h', hx, hterm, hprelude⟩ := flatten_rename hσ hk hes.1
    obtain ⟨y, y', hs, hs', hy, hterms, hpreludes⟩ :=
      flattenAll_rename hσ (hbefore.conj hprelude) hx hes.2
    exact ⟨{ y with terms := x.term :: y.terms }, { y' with terms := x'.term :: y'.terms },
      by rw [flattenAll, h]; simp only [hs], by rw [renameAll, flattenAll, h']; simp only [hs'],
      hy, .cons hterm hterms, hpreludes⟩

end

end Expr

end

end Deduction
