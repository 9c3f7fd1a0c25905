import Deduction.Proofs.Addition
import Deduction.Proofs.Blame
import Deduction.Sample.Family
import Mathlib.Data.Set.Basic

/-!
# Variables out of reach

A search learns something of the roots of its goal's variables and of variables that were issued
on the way, and of nothing else. For a set of unresolved variables that no variable of the goal
leads to, this is carried along a derivation: chains that end outside the set go on to do so,
whatever a rule's own variables are bound to leads outside of it as well, and only roots outside
of it are resolved or linked.
-/

namespace Deduction

namespace Env

/-- The chain of the variable ends outside the set. -/
def Clear (F : Set Variable) (k : Env) (v : Variable) : Prop :=
  ∃ r, Ends k.statuses v r ∧ r.last ∉ F

/-- Nothing is known of the variables in the set. -/
def Untouched (F : Set Variable) (k : Env) : Prop :=
  ∀ v ∈ F, k.statuses.get? v = some .unresolved

/-- What the rule's own variables are bound to leads outside the set. -/
def OwnClear (F : Set Variable) (k : Env) : Prop :=
  ∀ l v, k.referent? l = some (.var v) → k.Clear F v

/-- The second environment still knows nothing of the set, and nothing leads there that led
elsewhere in the first one. -/
structure Spares (F : Set Variable) (k k' : Env) : Prop where
  untouched : k'.Untouched F
  clear : ∀ {v}, k.Clear F v → k'.Clear F v
  own : k.OwnClear F → k'.OwnClear F

variable {F : Set Variable} {k k₁ k' : Env} {v w l : Variable} {o : Outcome}

/-- A set that nothing is known of is spared where nothing changes. -/
theorem Spares.refl (hk : k.Untouched F) : k.Spares F k := ⟨hk, id, id⟩

/-- A set that is spared step by step is spared. -/
theorem Spares.trans (h : k.Spares F k₁) (h' : k₁.Spares F k') : k.Spares F k' :=
  ⟨h'.untouched, fun hv => h'.clear (h.clear hv), fun hown => h'.own (h.own hown)⟩

/-- A variable whose chain ends is declared. -/
theorem Clear.declares (h : k.Clear F v) : k.declares v = true := by
  obtain ⟨r, hr, _⟩ := h
  exact hr.contains

/-- The root of a variable whose chain ends outside the set is not in the set. -/
theorem Clear.last_notMem (h : k.Clear F v) {r : Root} (hr : Ends k.statuses v r) :
    r.last ∉ F := by
  obtain ⟨r', hr', hlast⟩ := h
  rw [hr.unique hr']
  exact hlast

/-- At the start of matching nothing is bound that could lead into the set. -/
theorem OwnClear.startMatching (F : Set Variable) (k : Env) : k.startMatching.OwnClear F :=
  fun _ _ hl => by simp [referent?, Env.startMatching] at hl

/-- The start of matching spares every set that nothing is known of. -/
theorem Spares.startMatching (hk : k.Untouched F) : k.Spares F k.startMatching :=
  ⟨hk, id, fun _ => .startMatching F k⟩

/-! ## Updates -/

/-- Only variables outside the set get another status. -/
theorem spares_setStatus {s : Status} (hk : k.Untouched F) (hv : v ∉ F)
    (hclear : ∀ {u}, k.Clear F u → (k.setStatus v s).Clear F u) : k.Spares F (k.setStatus v s) where
  untouched u hu := by
    have hne : u ≠ v := fun heq => hv (heq ▸ hu)
    rw [setStatus_statuses, VarMap.get?_insert_of_ne _ s hne]
    exact hk u hu
  clear := hclear
  own hown l u hl := hclear (hown l u hl)

/-- A variable outside the set is resolved without touching it. -/
theorem spares_resolved {c : Constant} (hk : k.Untouched F) (hv : v ∉ F)
    (hu : k.statuses.get? v = some .unresolved) :
    k.Spares F (k.setStatus v (.resolved c)) := by
  refine spares_setStatus hk hv fun {u} ⟨r, hr, hlast⟩ => ?_
  refine ⟨_, hr.insert_resolved hu, ?_⟩
  split
  · exact hv
  · exact hlast

/-- A link between variables outside the set does not touch it. -/
theorem spares_linked {r : Root} (hk : k.Untouched F) (hv : v ∉ F)
    (hu : k.statuses.get? v = some .unresolved) (hr : Ends k.statuses r.last r)
    (hne : v ≠ r.last) (hlast : r.last ∉ F) :
    k.Spares F (k.setStatus v (.linked r.last)) := by
  refine spares_setStatus hk hv fun {u} ⟨r', hr', hlast'⟩ => ?_
  refine ⟨_, hr'.insert_linked hu hr hne, ?_⟩
  split
  · exact hlast
  · exact hlast'

/-- A rule's own variable is bound to something that leads outside the set. -/
theorem spares_setLocal {r : Referent} (hk : k.Untouched F)
    (hr : ∀ v, r = .var v → k.Clear F v) : k.Spares F (k.setLocal l r) where
  untouched := hk
  clear := id
  own hown l' v hl := by
    rcases VarMap.get?_insert_cases hl with ⟨_, heq⟩ | hl
    · exact hr v heq
    · exact hown l' v hl

/-- A variable that carries the next number is declared; it is not in the set. -/
theorem spares_insert_next {locals : VarMap Referent} (hk : k.Untouched F) (hn : k.Numbered)
    (hv : v.id? = some k.next)
    (hlocals : ∀ {l u}, locals.get? l = some (.var u) → u = v ∨ k.referent? l = some (.var u)) :
    k.Spares F { k with
      statuses := k.statuses.insert v .unresolved, locals := locals, next := k.next + 1 } ∧
    Clear F { k with
      statuses := k.statuses.insert v .unresolved, locals := locals, next := k.next + 1 } v := by
  have hfresh := hn.get?_next hv
  have hnot : v ∉ F := fun hmem => by
    rw [hk v hmem] at hfresh
    cases hfresh
  have hclear : ∀ {u}, k.Clear F u → Clear F { k with
      statuses := k.statuses.insert v .unresolved, locals := locals, next := k.next + 1 } u :=
    fun ⟨r, hr, hlast⟩ => ⟨r, hr.insert_fresh hfresh, hlast⟩
  have hself : Clear F { k with
      statuses := k.statuses.insert v .unresolved, locals := locals, next := k.next + 1 } v :=
    ⟨⟨v, none⟩, .unresolved (VarMap.get?_insert_self _ _ _), hnot⟩
  refine ⟨⟨fun u hu => ?_, hclear, fun hown l u hl => ?_⟩, hself⟩
  · exact VarMap.get?_insert_of_absent _ hfresh (hk u hu)
  · rcases hlocals hl with rfl | hl
    · exact hself
    · exact hclear (hown l u hl)

/-- A new temporary lies outside every set of declared variables. -/
theorem spares_issueTemporary (hk : k.Untouched F) (hn : k.Numbered) (stem : String) :
    k.Spares F (k.issueTemporary stem).2 ∧
      (k.issueTemporary stem).2.Clear F (k.issueTemporary stem).1 :=
  spares_insert_next hk hn rfl Or.inr

/-- A rule's own variable is bound to something that leads outside the set, at the latest when
it is declared. -/
theorem spares_declareLocal (hk : k.Untouched F) (hn : k.Numbered) (hown : k.OwnClear F)
    (l : Variable) : k.Spares F (k.declareLocal l).2 ∧
      ∀ v, (k.declareLocal l).1 = .var v → (k.declareLocal l).2.Clear F v := by
  cases hl : k.referent? l with
  | some r =>
    rw [declareLocal_of_bound hl]
    exact ⟨.refl hk, fun v hv => hown l v (hl.trans (congrArg some hv))⟩
  | none =>
    rw [declareLocal_of_unbound hl]
    have hlocals : ∀ {l' u},
        (k.locals.insert l (.var (.renamed l.name k.next))).get? l' = some (.var u) →
          u = .renamed l.name k.next ∨ k.referent? l' = some (.var u) := by
      intro l' u hu
      rcases VarMap.get?_insert_cases hu with ⟨_, heq⟩ | hu
      · cases heq
        exact Or.inl rfl
      · exact Or.inr hu
    obtain ⟨hspares, hclear⟩ := spares_insert_next (F := F) (v := .renamed l.name k.next) hk hn
      rfl hlocals
    refine ⟨hspares, fun v hv => ?_⟩
    cases hv
    exact hclear

/-! ## Learning -/

/-- To resolve a variable that leads outside the set spares it. -/
theorem resolve_spares {c : Constant} (hk : k.Untouched F) (hv : k.Clear F v)
    (h : k.resolve v c = .ok o) (ho : o.after k = some k') : k.Spares F k' := by
  rw [resolve] at h
  split at h
  · cases h
  · rename_i last hroot
    cases h
    cases ho
    have hends := root_eq_ok_iff.mp hroot
    exact spares_resolved hk (hv.last_notMem hends) hends.get?_last
  · obtain ⟨_, _, rfl⟩ := Outcome.ofComparison_cases h ho
    exact .refl hk

/-- To link variables that lead outside the set spares it. -/
theorem link_spares (hk : k.Untouched F) (hv : k.Clear F v) (hw : k.Clear F w)
    (h : k.link v w = .ok o) (ho : o.after k = some k') : k.Spares F k' := by
  obtain ⟨rv, rw, hrv, hrw, ⟨_, rfl⟩ | ⟨c, d, _, _, hcd⟩ | ⟨c, _, hc, hnone, rfl⟩ |
    ⟨hne, hnone, rfl⟩⟩ := link_cases h
  · cases ho
    exact .refl hk
  · obtain ⟨_, _, rfl⟩ := Outcome.ofComparison_cases hcd ho
    exact .refl hk
  · cases ho
    exact spares_resolved hk (hw.last_notMem hrw) (hrw.get?_last_unresolved hnone)
  · cases ho
    exact spares_linked hk (hv.last_notMem hrv) (hrv.get?_last_unresolved hnone) hrw.ends_last hne
      (hw.last_notMem hrw)

/-- To equate referents that lead outside the set spares it. -/
theorem equate_spares {p r : Referent} (hk : k.Untouched F) (hp : ∀ v, p = .var v → k.Clear F v)
    (hr : ∀ v, r = .var v → k.Clear F v) (h : k.equate p r = .ok o)
    (ho : o.after k = some k') : k.Spares F k' := by
  cases p with
  | var v =>
    cases r with
    | var w => exact link_spares hk (hp v rfl) (hr w rfl) h ho
    | const c => exact resolve_spares hk (hp v rfl) h ho
  | const c =>
    cases r with
    | var w => exact resolve_spares hk (hr w rfl) h ho
    | const d => cases h; cases ho

/-- To assign a referent that leads outside the set spares it. -/
theorem assignReferent_spares {r : Referent} (hk : k.Untouched F) (hown : k.OwnClear F)
    (hr : ∀ v, r = .var v → k.Clear F v) (h : k.assignReferent l r = .ok o)
    (ho : o.after k = some k') : k.Spares F k' := by
  cases hl : k.referent? l with
  | none =>
    cases r with
    | const c =>
      simp only [assignReferent, hl] at h
      cases h
      cases ho
      exact spares_setLocal hk hr
    | var v =>
      simp only [assignReferent, hl] at h
      split at h
      · cases h
        cases ho
        exact spares_setLocal hk hr
      · cases h
  | some p =>
    simp only [assignReferent, hl] at h
    split at h
    · cases h
    · cases h
      cases ho
      exact .refl hk
    · exact equate_spares hk (fun v hv => hown l v (hv ▸ hl)) hr h ho

/-- To assign a term that leads outside the set spares it. -/
theorem assign_spares {t : Term} (hk : k.Untouched F) (hown : k.OwnClear F)
    (ht : t.Vars (k.Clear F)) (h : k.assign l t = .ok o) (ho : o.after k = some k') :
    k.Spares F k' := by
  cases t with
  | hole => cases h; cases ho; exact .refl hk
  | keyword a => cases h; cases ho
  | const c =>
    rw [assign] at h
    exact assignReferent_spares (r := .const c) hk hown (fun _ hv => by cases hv) h ho
  | var w =>
    rw [assign] at h
    refine assignReferent_spares (r := .var w) hk hown (fun v hv => ?_) h ho
    cases hv
    exact ht w rfl

end Env

variable {F : Set Variable} {k k' : Env}

/-! ## Matching -/

/-- To match a term that leads outside the set spares it. -/
theorem Term.matchGoal_spares {s t : Term} {o : Outcome} (hk : k.Untouched F)
    (hown : k.OwnClear F) (ht : t.Vars (k.Clear F)) (h : s.matchGoal k t = .ok o)
    (ho : o.after k = some k') : k.Spares F k' := by
  cases s with
  | hole => cases t <;> cases h <;> cases ho <;> exact .refl hk
  | keyword a =>
    cases t with
    | keyword b =>
      rw [Term.matchGoal] at h
      split at h <;> cases h <;> cases ho
      exact .refl hk
    | const c => cases h; cases ho
    | var v => cases h; cases ho
    | hole => cases h; cases ho
  | const c =>
    cases t with
    | keyword b => cases h; cases ho
    | const d =>
      obtain ⟨_, _, rfl⟩ := Outcome.ofComparison_cases h ho
      exact .refl hk
    | var v => exact Env.resolve_spares hk (ht v rfl) h ho
    | hole => cases h; cases ho; exact .refl hk
  | var l =>
    rw [Term.matchGoal_var] at h
    exact Env.assign_spares hk hown ht h ho

/-- To match terms that lead outside the set, one by one, spares it. -/
theorem Pattern.matchTerms_spares {condition goal : Pattern} (hk : k.Untouched F)
    (hown : k.OwnClear F) (hg : Pattern.Each (Term.Vars (k.Clear F)) goal)
    (h : Pattern.matchTerms condition goal k = .ok (some k')) : k.Spares F k' := by
  induction condition generalizing goal k with
  | nil =>
    simp only [Pattern.matchTerms] at h
    cases h
    exact .refl hk
  | cons s ss ih =>
    cases goal with
    | nil =>
      simp only [Pattern.matchTerms] at h
      cases h
      exact .refl hk
    | cons t ts =>
      rw [Pattern.matchTerms] at h
      split at h
      · cases h
      · rename_i o ho
        split at h
        · cases h
        · rename_i k₁ hk₁
          have hstep := Term.matchGoal_spares hk hown (hg t List.mem_cons_self) ho hk₁
          refine hstep.trans (ih hstep.untouched (hstep.own hown) (fun x hx v hv => ?_) h)
          exact hstep.clear (hg x (List.mem_cons_of_mem t hx) v hv)

/-- A match spares the set if the goal's variables lead outside of it, and then so do the own
variables of the matched rule. -/
theorem Pattern.matchGoal_spares {condition goal : Pattern} (hk : k.Untouched F)
    (hg : Pattern.Each (Term.Vars (k.Clear F)) goal)
    (h : Pattern.matchGoal condition goal k = .ok (some k')) :
    k.Spares F k' ∧ k'.OwnClear F := by
  rw [Pattern.matchGoal] at h
  split at h
  · have hstart := Env.OwnClear.startMatching F k
    have hterms := Pattern.matchTerms_spares (k := k.startMatching) hk hstart hg h
    exact ⟨(Env.Spares.startMatching hk).trans hterms, hterms.own hstart⟩
  · cases h

/-! ## Flattening -/

/-- A variable that is written by name in a rule stands for something that leads outside. -/
theorem Env.expandVariable_spares {v : Variable} {r : Referent} (hk : k.Untouched F)
    (hn : k.Numbered) (hown : k.OwnClear F) (hscope : k.scope = .rule) (hv : ¬ v.IsIssued)
    (h : k.expandVariable v = .ok (r, k')) :
    k.Spares F k' ∧ ∀ w, r = .var w → k'.Clear F w := by
  have hlocal := Env.spares_declareLocal hk hn hown v
  have hexpand : k.expandVariable v = .ok (k.declareLocal v) := by
    simp [Env.expandVariable, hscope, hv]
  rw [Except.ok.inj (hexpand.symm.trans h)] at hlocal
  exact hlocal

namespace Expr

mutual

/-- What a named expression of a rule is flattened to leads outside the set. -/
theorem flatten_spares : ∀ {e : Expr} {k : Env} {x : FlatTerm}, k.WellFormed →
    k.Untouched F → k.OwnClear F → k.scope = .rule →
    e.Each (Term.Vars fun v => ¬ v.IsIssued) → e.flatten k = .ok x →
    k.Spares F x.env ∧ x.term.Vars (x.env.Clear F) ∧
      x.prelude.Each (Term.Vars (x.env.Clear F))
  | .term t, k, x, hk, hF, hown, hscope, ht, h => by
    rcases flatten_term_cases h with ⟨v, r, rfl, hv, hx⟩ | ⟨hnot, rfl⟩
    · obtain ⟨hspares, hclear⟩ :=
        Env.expandVariable_spares hF hk.numbered hown hscope (ht v rfl) hv
      rw [hx]
      refine ⟨hspares, fun w hw => ?_, trivial⟩
      cases r with
      | const c => cases hw
      | var u =>
        cases hw
        exact hclear w rfl
    · exact ⟨.refl hF, fun v hv => absurd hv (hnot v), trivial⟩
  | .phrase es, k, x, hk, hF, hown, hscope, hes, h => by
    obtain ⟨y, hy, rfl⟩ := flatten_phrase_cases h
    have hempty : Prelude.empty.Each (Term.Vars (k.Clear F)) := trivial
    obtain ⟨hspares, hterms, hprelude⟩ :=
      flattenAll_spares hk hF hown hscope hes hempty hy
    have hy' := ((flattenAll_evolves (U := fun _ => True) hy).wellFormed hk).1
    obtain ⟨hissue, htemporary⟩ :=
      Env.spares_issueTemporary hspares.untouched hy'.numbered phraseStem
    have hvar : (Term.var (.temporary phraseStem y.env.next)).Vars
        ((y.env.issueTemporary phraseStem).2.Clear F) := fun w hw => by
      cases hw
      exact htemporary
    refine ⟨hspares.trans hissue, hvar, Prelude.each_conj.mpr ⟨?_, hvar, ?_⟩⟩
    · exact hprelude.mono fun t ht v hv => hissue.clear (ht v hv)
    · exact fun t ht v hv => hissue.clear (hterms t ht v hv)

/-- To flatten listed expressions of a rule spares the set, and their terms lead outside it. -/
theorem flattenAll_spares : ∀ {es : List Expr} {before : Prelude} {k : Env} {x : FlatPhrase},
    k.WellFormed → k.Untouched F → k.OwnClear F → k.scope = .rule →
    EachOf (Term.Vars fun v => ¬ v.IsIssued) es → before.Each (Term.Vars (k.Clear F)) →
    flattenAll es before k = .ok x →
    k.Spares F x.env ∧ Pattern.Each (Term.Vars (x.env.Clear F)) x.terms ∧
      x.prelude.Each (Term.Vars (x.env.Clear F))
  | [], before, k, x, _, hF, _, _, _, hbefore, h => by
    rw [flattenAll] at h
    cases h
    exact ⟨.refl hF, fun t ht => (nomatch ht), hbefore⟩
  | e :: es, before, k, x, hk, hF, hown, hscope, hes, hbefore, h => by
    obtain ⟨y, z, hy, hz, rfl⟩ := flattenAll_cons_cases h
    obtain ⟨hy', hcontinues⟩ := (flatten_evolves (U := fun _ => True) hy).wellFormed hk
    obtain ⟨hfirst, hterm, hprelude⟩ := flatten_spares hk hF hown hscope hes.1 hy
    have hbefore' : before.Each (Term.Vars (y.env.Clear F)) :=
      hbefore.mono fun t ht v hv => hfirst.clear (ht v hv)
    obtain ⟨hrest, hterms, hpreludes⟩ := flattenAll_spares hy' hfirst.untouched
      (hfirst.own hown) (hcontinues.scope.trans hscope) hes.2
      (Prelude.each_conj.mpr ⟨hbefore', hprelude⟩) hz
    refine ⟨hfirst.trans hrest, fun t ht => ?_, hpreludes⟩
    rcases List.mem_cons.mp ht with rfl | ht
    · exact fun v hv => hrest.clear (hterm v hv)
    · exact hterms t ht

end

end Expr

/-! ## Leaving a scope -/

/-- The return to an outer environment spares what the inner one has spared. -/
theorem Env.spares_restore {inner outer : Env} (houter : outer.WellFormed)
    (hextends : outer.Extends inner) (hF : outer.Untouched F) (hspares : outer.Spares F inner)
    (h : inner.restore outer = .ok k') : outer.Spares F k' := by
  have huntouched : k'.Untouched F := by
    intro v hv
    have hdeclared := (continues_restore houter hextends h).declared
      (declares_iff.mpr ⟨_, hF v hv⟩)
    obtain ⟨s, hs⟩ := declares_iff.mp hdeclared
    have hinner := hspares.untouched v hv
    rcases status_of_restore h hs with hsame | rfl | ⟨w, r, hlinked, _⟩
    · rw [hs, ← hsame, hinner]
    · exact hs
    · rw [hinner] at hlinked
      cases hlinked
  have hclear : ∀ {v}, outer.Clear F v → k'.Clear F v := by
    intro v hv
    obtain ⟨r, hr, hlast⟩ := hspares.clear hv
    obtain ⟨r', hr', hvalue, hsame⟩ := ends_restore h hv.declares hr
    refine ⟨r', hr', fun hmem => ?_⟩
    -- a root in the set is unresolved, and an unresolved root is the one from before
    have hunresolved := hr'.get?_last.symm.trans (huntouched _ hmem)
    rcases r' with ⟨last, _ | c⟩
    · rw [← hsame hvalue.symm] at hlast
      exact hlast hmem
    · cases hunresolved
  refine ⟨huntouched, hclear, fun hown l v hl => hclear (hown l v ?_)⟩
  rw [← referent?_restore h, hl]

/-! ## Solutions -/

/-- A goal without host goals as it is met on the way from a goal that leads outside the set:
its patterns do so, and its calls are made in a rule whose own variables do so. -/
def Goal.LeadsOutside (F : Set Variable) (k : Env) : Goal → Prop
  | truth | falsity => True
  | and p q | or p q => p.LeadsOutside F k ∧ q.LeadsOutside F k
  | not p => p.LeadsOutside F k
  | apply g => Pattern.Each (Term.Vars (k.Clear F)) g
  | call es => k.scope = .rule ∧ k.OwnClear F ∧ Expr.EachOf (Term.Vars fun v => ¬ v.IsIssued) es
  | host _ => False

namespace Goal

variable {p : Goal}

/-- A goal that leads outside the set goes on to do so where the set is spared. -/
theorem LeadsOutside.mono (h : p.LeadsOutside F k) (hspares : k.Spares F k')
    (hscope : k'.scope = k.scope) : p.LeadsOutside F k' := by
  induction p with
  | truth => trivial
  | falsity => trivial
  | and p q ihp ihq => exact ⟨ihp h.1, ihq h.2⟩
  | or p q ihp ihq => exact ⟨ihp h.1, ihq h.2⟩
  | not p ih => exact ih h
  | apply g => exact fun t ht v hv => hspares.clear (h t ht v hv)
  | call es => exact ⟨hscope.trans h.1, hspares.own h.2.1, h.2.2⟩
  | host g => exact h

/-- The body of a rule leads outside the set if the rule's own variables do. -/
theorem CallsOnly.leadsOutside (h : p.CallsOnly)
    (hnamed : p.Each (Term.Vars fun v => ¬ v.IsIssued)) (hscope : k.scope = .rule)
    (hown : k.OwnClear F) : p.LeadsOutside F k := by
  induction p with
  | truth => trivial
  | falsity => trivial
  | and p q ihp ihq => exact ⟨ihp h.1 hnamed.1, ihq h.2 hnamed.2⟩
  | or p q ihp ihq => exact ⟨ihp h.1 hnamed.1, ihq h.2 hnamed.2⟩
  | not p ih => exact ih h hnamed
  | apply g => exact h.elim
  | call es => exact ⟨hscope, hown, hnamed⟩
  | host g => exact h

/-- A goal that leads outside the set asks no host. -/
theorem LeadsOutside.hostFree (h : p.LeadsOutside F k) : p.HostFree := by
  induction p with
  | truth => trivial
  | falsity => trivial
  | and p q ihp ihq => exact ⟨ihp h.1, ihq h.2⟩
  | or p q ihp ihq => exact ⟨ihp h.1, ihq h.2⟩
  | not p ih => exact ih h
  | apply g => trivial
  | call es => trivial
  | host g => exact h

end Goal

/-- A prelude over variables that lead outside the set does so as a goal. -/
theorem Prelude.leadsOutside_toGoal {p : Prelude} (h : p.Each (Term.Vars (k.Clear F))) :
    p.toGoal.LeadsOutside F k := by
  induction p with
  | empty => trivial
  | define t es => exact each_definedBy (fun v hv => nomatch hv) h
  | both p q ihp ihq => exact ⟨ihp h.1, ihq h.2⟩

/-- Solving a goal that leads outside the set spares the set. -/
theorem Program.Solves.spares {program : Program} {p : Goal} (h : program.Solves p k k')
    (hcalls : program.CallsOnly) (hnamed : program.Each (Term.Vars fun v => ¬ v.IsIssued))
    (hp : p.LeadsOutside F k) (hk : k.WellFormed) (hF : k.Untouched F) : k.Spares F k' := by
  have hfree := hcalls.hostFree
  induction h with
  | truth => exact .refl hF
  | and hsolves _ ihp ihq =>
    obtain ⟨hk₁, hcontinues⟩ := hsolves.continues (hfree.hosts _) (hp.1.hostFree.hosts _) hk
    have hfirst := ihp hp.1 hk hF
    exact hfirst.trans (ihq (hp.2.mono hfirst hcontinues.scope) hk₁ hfirst.untouched)
  | orLeft _ ih => exact ih hp.1 hk hF
  | orRight _ ih => exact ih hp.2 hk hF
  | not => exact .refl hF
  | apply hr hm hsolves hrestore ih =>
    obtain ⟨hk₁, hextends, hscope⟩ := Pattern.matchGoal_wellFormed hm hk
    obtain ⟨hmatch, hown⟩ := Pattern.matchGoal_spares hF hp hm
    have hbody := (hcalls _ hr).leadsOutside (hnamed _ hr).2 hscope hown
    obtain ⟨_, hcontinues⟩ := hsolves.continues (hfree.hosts _) (hbody.hostFree.hosts _) hk₁
    exact Env.spares_restore hk (hextends.trans hcontinues.toExtends) hF
      (hmatch.trans (ih hbody hk₁ hmatch.untouched)) hrestore
  | @call es k _ x hx _ ih =>
    obtain ⟨hscope, hown, hes⟩ := hp
    have hempty : Prelude.empty.Each (Term.Vars (k.Clear F)) := trivial
    obtain ⟨hflat, hterms, hprelude⟩ := Expr.flattenAll_spares hk hF hown hscope hes hempty hx
    have hgoal := Prelude.leadsOutside_toGoal hprelude
    exact hflat.trans (ih ⟨hgoal, hterms⟩ (Expr.flattenPhrase_wellFormed hx hk).1 hflat.untouched)
  | host => exact hp.elim

/-- An application leaves every declared variable as it is that is not the root of one of the
goal's variables, whatever names the rules use and however deep they are nested. -/
theorem Goal.mem_solve_apply_keeps_unreached {program : Program} {g : Pattern} {depth limit : Nat}
    {choice : Nat → Bool} (hcalls : program.CallsOnly)
    (hnamed : program.Each (Term.Vars fun v => ¬ v.IsIssued)) (hk : k.WellFormed)
    (hg : Pattern.Each (Term.Vars fun v => k.declares v = true) g)
    (h : .ok k' ∈ ((Goal.apply g).solve program.select depth limit choice k).items)
    {v : Variable} (hv : k.declares v = true)
    (hroot : ∀ u r, .var u ∈ g → k.root u = .ok r → r.last ≠ v) :
    k'.statuses.get? v = k.statuses.get? v := by
  have hsolves : program.Solves (.apply g) k k' := Program.answers_of_mem_solve h
  obtain ⟨s, hs⟩ := Env.declares_iff.mp hv
  by_cases hunresolved : s = .unresolved
  · have huntouched : k.Untouched {v} := by
      rintro w rfl
      rw [hs, hunresolved]
    have hclear : (Goal.apply g).LeadsOutside {v} k := by
      rintro t ht u rfl
      obtain ⟨r, hr, hends⟩ := hk.root_eq (hg _ ht u rfl)
      exact ⟨r, hends, hroot u r ht hr⟩
    have hspares := hsolves.spares hcalls hnamed hclear hk huntouched
    rw [hspares.untouched v rfl, hs, hunresolved]
  · obtain ⟨_, hcontinues⟩ := hsolves.continues (hcalls.hostFree.hosts _) trivial hk
    rw [hs, hcontinues.kept hs hunresolved]

namespace Sample

/-- A query in which one variable is linked to another, beside a third one that has the name of
a rule's own variable. -/
def linkedQuery : Env :=
  Env.setStatus (.declaring (["c", "g", "who"].map .named)) (.named "g") (.linked (.named "who"))

/-- The query with a link is well formed. -/
theorem wellFormed_linkedQuery : linkedQuery.WellFormed := by decide

/-- The grandfather of ann is asked for through the linked variable. -/
def linkedGrandfather : Pattern := grandfatherOf (.var (.named "g")) (.const (.atom "ann"))

/-- The root of the linked variable is resolved, and the rule's own name has a number. -/
def grandfatherFound : Env := { linkedQuery with
  statuses := linkedQuery.statuses.insert (.named "who") (.resolved (.atom "tom")), next := 2 }

/-- The rule calls one of its own variables like a variable of the query, and yet nothing is
learned of that one. -/
theorem grandfatherFound_keeps_unreached :
    .ok grandfatherFound ∈ ((Goal.apply linkedGrandfather).solve fathers.select 2 5
      Search.alternate linkedQuery).items ∧
    linkedQuery.root (.named "g") = .ok ⟨.named "who", none⟩ ∧
    grandfatherFound.statuses.get? (.named "who") = some (.resolved (.atom "tom")) ∧
    grandfatherFound.statuses.get? (.named "c") = linkedQuery.statuses.get? (.named "c") := by
  have hmem : .ok grandfatherFound ∈ ((Goal.apply linkedGrandfather).solve fathers.select 2 5
      Search.alternate linkedQuery).items := by decide +kernel
  have hcalls : fathers.CallsOnly := by
    simp [Program.CallsOnly, fathers, fatherFact, Rule.fact, Goal.CallsOnly, grandfatherRule]
  have hnamed : fathers.Each (Term.Vars fun v => ¬ v.IsIssued) := by
    simp [fathers, fatherFact, grandfatherRule, grandfatherOf, written, atom, Rule.fact,
      Program.Each, Pattern.Each, Goal.Each, Expr.EachOf, Expr.Each, Term.Vars,
      Variable.IsIssued, Variable.id?]
  have hg : linkedQuery.declares (.named "g") = true := by decide
  have hdeclared : Pattern.Each (Term.Vars fun v => linkedQuery.declares v = true)
      linkedGrandfather := by
    simp [linkedGrandfather, grandfatherOf, Pattern.Each, Term.Vars, hg]
  have hroot : linkedQuery.root (.named "g") = .ok ⟨.named "who", none⟩ := by decide
  refine ⟨hmem, hroot, by decide, Goal.mem_solve_apply_keeps_unreached hcalls hnamed
    wellFormed_linkedQuery hdeclared hmem (by decide) fun u r hu hr => ?_⟩
  obtain rfl : u = .named "g" := by simpa [linkedGrandfather, grandfatherOf] using hu
  rw [hroot] at hr
  cases hr
  decide

end Sample

end Deduction
