import Deduction.Expansion
import Deduction.Matching
import Deduction.Proofs.Chain
import Deduction.Proofs.Occurrence
import Mathlib.Logic.Relation

/-!
# Elementary updates

Matching and flattening change an environment in five ways only: an unresolved root is
resolved, or linked to another root, an unbound variable of a rule is bound, a
temporary is issued, or a rule's own variable is renamed apart. Every operation is
described as a run of such updates, and an invariant is proved for the updates alone.
The constants that enter an environment are traced: they belong to a given set.
-/

namespace Deduction

open Relation

/-- A referent with a constant of the given set or with a declared variable. -/
def Referent.Within (U : Constant → Prop) (k : Env) : Referent → Prop
  | .const c => U c
  | .var v => k.declares v = true

/-- A referent within a set is one within the set of all constants. -/
theorem Referent.Within.univ {U : Constant → Prop} {k : Env} {r : Referent} (h : r.Within U k) :
    r.Within (fun _ => True) k := by
  cases r with
  | const c => trivial
  | var v => exact h

namespace Env

/-- All constants that an environment knows of belong to the given set. -/
structure Over (U : Constant → Prop) (k : Env) : Prop where
  statuses : ∀ {v c}, k.statuses.get? v = some (.resolved c) → U c
  locals : ∀ {l c}, k.referent? l = some (.const c) → U c

/-- One elementary change of an environment. -/
inductive Update (U : Constant → Prop) (k : Env) : Env → Prop
  | resolved {v : Variable} {c : Constant} (hv : k.statuses.get? v = some .unresolved)
      (hc : U c) : Update U k (k.setStatus v (.resolved c))
  | linked {v : Variable} {r : Root} (hv : k.statuses.get? v = some .unresolved)
      (hr : Ends k.statuses r.last r) (hne : v ≠ r.last) :
      Update U k (k.setStatus v (.linked r.last))
  | bound {l : Variable} {r : Referent} (hl : k.referent? l = none) (hr : r.Within U k) :
      Update U k (k.setLocal l r)
  | issued {stem : String} : Update U k (k.issueTemporary stem).2
  | renamed {l : Variable} (hl : k.referent? l = none) : Update U k (k.declareLocal l).2

/-- A run of elementary changes. -/
abbrev Evolves (U : Constant → Prop) : Env → Env → Prop := ReflTransGen (Update U)

variable {U : Constant → Prop} {k k' : Env}

/-- Every constant belongs to the set of all constants. -/
theorem over_univ (k : Env) : k.Over fun _ => True := ⟨fun _ => trivial, fun _ => trivial⟩

/-- What a variable is known to stand for belongs to the set, too. -/
theorem Over.of_valueOf (hU : k.Over U) {v : Variable} {c : Constant}
    (h : k.valueOf v = .ok (some c)) : U c := by
  obtain ⟨⟨last, value⟩, hr, rfl⟩ := exists_ends_of_valueOf h
  exact hU.statuses hr.get?_last

@[simp] theorem setStatus_statuses (k : Env) (v : Variable) (s : Status) :
    (k.setStatus v s).statuses = k.statuses.insert v s := rfl

/-- An unbound variable of a rule is declared under the next number. -/
theorem declareLocal_of_unbound {l : Variable} (hl : k.referent? l = none) :
    k.declareLocal l = (.var (.renamed l.name k.next),
      { k with
        statuses := k.statuses.insert (.renamed l.name k.next) .unresolved
        locals := k.locals.insert l (.var (.renamed l.name k.next))
        next := k.next + 1 }) := by
  simp [declareLocal, hl]

/-- An own variable that is bound already stands for what it is bound to. -/
theorem declareLocal_of_bound {l : Variable} {r : Referent} (hl : k.referent? l = some r) :
    k.declareLocal l = (r, k) := by
  simp [declareLocal, hl]

/-- Updates bring no constant from elsewhere. -/
theorem Update.over (h : Update U k k') (hk : k.Over U) : k'.Over U := by
  cases h with
  | @resolved v c hv hc =>
    refine ⟨fun {w d} hw => ?_, hk.locals⟩
    rcases VarMap.get?_insert_cases hw with ⟨_, hcd⟩ | hw
    · cases hcd
      exact hc
    · exact hk.statuses hw
  | @linked v r hv hr hne =>
    refine ⟨fun {w d} hw => ?_, hk.locals⟩
    rcases VarMap.get?_insert_cases hw with ⟨_, hne⟩ | hw
    · cases hne
    · exact hk.statuses hw
  | @bound l r hl hr =>
    refine ⟨hk.statuses, fun {l' c} hl' => ?_⟩
    rcases VarMap.get?_insert_cases hl' with ⟨_, rfl⟩ | hl'
    · exact hr
    · exact hk.locals hl'
  | @issued stem =>
    refine ⟨fun {w d} hw => ?_, hk.locals⟩
    rcases VarMap.get?_insert_cases hw with ⟨_, hne⟩ | hw
    · cases hne
    · exact hk.statuses hw
  | @renamed l hl =>
    rw [declareLocal_of_unbound hl]
    constructor
    · intro w d hw
      rcases VarMap.get?_insert_cases hw with ⟨_, hne⟩ | hw
      · cases hne
      · exact hk.statuses hw
    · intro l' c hl'
      rcases VarMap.get?_insert_cases hl' with ⟨_, hne⟩ | hl'
      · cases hne
      · exact hk.locals hl'

/-- A run of updates with constants of the set knows no others. -/
theorem Evolves.over (h : k.Evolves U k') (hk : k.Over U) : k'.Over U := by
  induction h with
  | refl => exact hk
  | tail _ hstep ih => exact hstep.over ih

end Env

/-! ## Learning -/

/-- The attempt found what was known already, or it learned by one elementary update, which issues
no variable. -/
def Outcome.Updates (U : Constant → Prop) (o : Outcome) (k k' : Env) : Prop :=
  o = .known ∧ k' = k ∨ o = .learned k' ∧ Env.Update U k k' ∧ k'.next = k.next

variable {U : Constant → Prop} {judge : Judge} {k k' : Env} {o : Outcome}

namespace Outcome

/-- A comparison that succeeds has found its sides equal, and teaches nothing. -/
theorem ofComparison_cases {x : Comparison} (h : ofComparison x = .ok o)
    (ho : o.after k = some k') : x = .ok true ∧ o = .known ∧ k' = k := by
  cases x with
  | error cause => cases h
  | ok b =>
    cases b with
    | true =>
      cases h
      cases ho
      exact ⟨rfl, rfl, rfl⟩
    | false =>
      cases h
      cases ho

/-- Where nothing is learned, nothing is changed. -/
theorem updates_known (ho : known.after k = some k') : known.Updates U k k' :=
  Or.inl ⟨rfl, (Option.some.inj ho).symm⟩

/-- What is learned by one update changes the environment by it. -/
theorem updates_learned {k₁ : Env} (h : Env.Update U k k₁) (hnext : k₁.next = k.next)
    (ho : (learned k₁).after k = some k') : (learned k₁).Updates U k k' := by
  cases ho
  exact Or.inr ⟨rfl, h, hnext⟩

/-- Comparing two constants changes nothing. -/
theorem updates_ofComparison {x : Comparison} (h : ofComparison x = .ok o)
    (ho : o.after k = some k') : o.Updates U k k' := by
  obtain ⟨_, rfl, rfl⟩ := ofComparison_cases h ho
  exact updates_known rfl

/-- One update is a run of updates, and no update is an empty one. -/
theorem Updates.evolves (h : o.Updates U k k') : k.Evolves U k' := by
  rcases h with ⟨_, rfl⟩ | ⟨_, h, _⟩
  · exact .refl
  · exact .single h

end Outcome

namespace Env

/-- Resolving a variable resolves its unresolved root, or changes nothing. -/
theorem resolve_updates {v : Variable} {c : Constant} (h : k.resolve v c judge = .ok o)
    (ho : o.after k = some k') (hc : U c) : o.Updates U k k' := by
  rw [resolve] at h
  split at h
  · cases h
  · rename_i last hroot
    cases h
    exact Outcome.updates_learned (.resolved (root_eq_ok_iff.mp hroot).get?_last hc) rfl ho
  · exact Outcome.updates_ofComparison h ho

/-- What an attempt to link two variables finds: the same root, two constants to compare, one
constant to hand on to the other root, or an unresolved root to be linked. -/
theorem link_cases {v w : Variable} (h : k.link v w judge = .ok o) :
    ∃ rv rw, Ends k.statuses v rv ∧ Ends k.statuses w rw ∧
      (rv.last = rw.last ∧ o = .known ∨
        (∃ c d, rv.value = some c ∧ rw.value = some d ∧
          Outcome.ofComparison (c.agrees d judge) = .ok o) ∨
        (∃ c, rv.last ≠ rw.last ∧ rv.value = some c ∧ rw.value = none ∧
          o = .learned (k.setStatus rw.last (.resolved c))) ∨
        rv.last ≠ rw.last ∧ rv.value = none ∧
          o = .learned (k.setStatus rv.last (.linked rw.last))) := by
  rw [link] at h
  split at h
  · cases h
  · rename_i rv hv
    split at h
    · cases h
    · rename_i rw hw
      refine ⟨rv, rw, root_eq_ok_iff.mp hv, root_eq_ok_iff.mp hw, ?_⟩
      split at h
      · rename_i hlast
        cases h
        exact Or.inl ⟨hlast, rfl⟩
      · rename_i hne
        split at h
        · rename_i c d hc hd
          exact Or.inr (Or.inl ⟨c, d, hc, hd, h⟩)
        · rename_i c hc hnone
          cases h
          exact Or.inr (Or.inr (Or.inl ⟨c, hne, hc, hnone, rfl⟩))
        · rename_i hnone
          cases h
          exact Or.inr (Or.inr (Or.inr ⟨hne, hnone, rfl⟩))

/-- Linking two variables links or resolves one of their roots, or changes nothing. -/
theorem link_updates {v w : Variable} (hk : k.Over U) (h : k.link v w judge = .ok o)
    (ho : o.after k = some k') : o.Updates U k k' := by
  obtain ⟨rv, rw, hv, hw, ⟨_, rfl⟩ | ⟨c, d, _, _, hcd⟩ | ⟨c, _, hc, hnone, rfl⟩ |
    ⟨hne, hnone, rfl⟩⟩ := link_cases h
  · exact Outcome.updates_known ho
  · exact Outcome.updates_ofComparison hcd ho
  · have hknown := hk.statuses (hv.get?_last_resolved hc)
    exact Outcome.updates_learned (.resolved (hw.get?_last_unresolved hnone) hknown) rfl ho
  · exact Outcome.updates_learned (.linked (hv.get?_last_unresolved hnone) hw.ends_last hne) rfl ho

/-- Equating two referents is learning about the variables among them. -/
theorem equate_updates {p r : Referent} (hk : k.Over U) (hp : ∀ c, p = .const c → U c)
    (hr : ∀ c, r = .const c → U c) (h : k.equate p r judge = .ok o)
    (ho : o.after k = some k') : o.Updates U k k' := by
  cases p with
  | var v =>
    cases r with
    | var w => exact link_updates hk h ho
    | const c => exact resolve_updates h ho (hr c rfl)
  | const c =>
    cases r with
    | var w => exact resolve_updates h ho (hp c rfl)
    | const d => cases h; cases ho

/-- A referent is assigned to an unbound variable of the rule by binding it, if it is declared. -/
theorem assignReferent_of_unbound_iff {l : Variable} {r : Referent} (hl : k.referent? l = none) :
    k.assignReferent l r judge = .ok o ↔
      r.Within (fun _ => True) k ∧ o = .learned (k.setLocal l r) := by
  cases r with
  | const c => simp [assignReferent, hl, Referent.Within, eq_comm]
  | var v =>
    cases hv : k.declares v <;> simp [assignReferent, hl, hv, Referent.Within, eq_comm]

/-- A rule's own variable is bound to its first referent and equated with later ones. -/
theorem assignReferent_updates {l : Variable} {r : Referent} (hk : k.Over U)
    (hr : ∀ c, r = .const c → U c) (h : k.assignReferent l r judge = .ok o)
    (ho : o.after k = some k') : o.Updates U k k' := by
  cases hl : k.referent? l with
  | none =>
    obtain ⟨hdeclared, rfl⟩ := (assignReferent_of_unbound_iff hl).mp h
    have hwithin : r.Within U k := by
      cases r with
      | const c => exact hr c rfl
      | var v => exact hdeclared
    exact Outcome.updates_learned (.bound hl hwithin) rfl ho
  | some p =>
    simp only [assignReferent, hl] at h
    split at h
    · cases h
    · cases h
      exact Outcome.updates_known ho
    · exact equate_updates hk (fun c hc => hk.locals (hc ▸ hl)) hr h ho

/-- A referent is assigned as the term that it is. -/
theorem assign_toTerm (k : Env) (l : Variable) (r : Referent) :
    k.assign l r.toTerm judge = k.assignReferent l r judge := by
  cases r <;> rfl

/-- An unbound variable of a rule gets bound to whatever it meets first. -/
theorem assign_of_unbound {l : Variable} {r : Referent} (hl : k.referent? l = none)
    (hr : r.Within U k) : k.assign l r.toTerm judge = .ok (.learned (k.setLocal l r)) :=
  (assign_toTerm k l r).trans ((assignReferent_of_unbound_iff hl).mpr ⟨hr.univ, rfl⟩)

/-- A term is assigned as the referent that it is; a hole changes nothing. -/
theorem assign_updates {l : Variable} {t : Term} (hk : k.Over U) (ht : t.Over U)
    (h : k.assign l t judge = .ok o) (ho : o.after k = some k') : o.Updates U k k' := by
  cases t with
  | hole => cases h; exact Outcome.updates_known ho
  | keyword a => cases h; cases ho
  | const c =>
    rw [assign] at h
    refine assignReferent_updates hk (fun d hd => ?_) h ho
    cases hd
    exact ht c rfl
  | var v =>
    rw [assign] at h
    exact assignReferent_updates hk (fun d hd => by cases hd) h ho

end Env

/-! ## Matching -/

/-- A variable of a condition is assigned whatever stands in the goal. -/
theorem Term.matchGoal_var (l : Variable) (t : Term) :
    (Term.var l).matchGoal k t judge = k.assign l t judge := by
  cases t <;> rfl

/-- Matching two terms takes one update at most. -/
theorem Term.matchGoal_updates {s t : Term} (hk : k.Over U) (hs : s.Over U) (ht : t.Over U)
    (h : s.matchGoal k t judge = .ok o) (ho : o.after k = some k') : o.Updates U k k' := by
  cases s with
  | hole =>
    cases t with
    | keyword b => cases h; cases ho
    | const d => cases h; exact Outcome.updates_known ho
    | var v => cases h; exact Outcome.updates_known ho
    | hole => cases h; exact Outcome.updates_known ho
  | keyword a =>
    cases t with
    | keyword b =>
      rw [Term.matchGoal] at h
      split at h <;> cases h
      · exact Outcome.updates_known ho
      · cases ho
    | const c => cases h; cases ho
    | var v => cases h; cases ho
    | hole => cases h; cases ho
  | const c =>
    cases t with
    | keyword b => cases h; cases ho
    | const d => exact Outcome.updates_ofComparison h ho
    | var v => exact Env.resolve_updates h ho (hs c rfl)
    | hole => cases h; exact Outcome.updates_known ho
  | var l =>
    rw [Term.matchGoal_var] at h
    exact Env.assign_updates hk ht h ho

/-- Matching terms pairwise is a run of updates. -/
theorem Pattern.matchTerms_evolves {condition goal : Pattern} (hk : k.Over U)
    (hc : Pattern.Each (Term.Over U) condition) (hg : Pattern.Each (Term.Over U) goal)
    (h : Pattern.matchTerms condition goal k judge = .ok (some k')) : k.Evolves U k' := by
  induction condition generalizing goal k with
  | nil =>
    simp only [Pattern.matchTerms] at h
    cases h
    exact .refl
  | cons s ss ih =>
    cases goal with
    | nil =>
      simp only [Pattern.matchTerms] at h
      cases h
      exact .refl
    | cons t ts =>
      rw [Pattern.matchTerms] at h
      split at h
      · cases h
      · rename_i o ho
        split at h
        · cases h
        · rename_i k₁ hk₁
          have hstep := (Term.matchGoal_updates hk (hc s List.mem_cons_self)
            (hg t List.mem_cons_self) ho hk₁).evolves
          exact hstep.trans (ih (hstep.over hk) (fun x hx => hc x (List.mem_cons_of_mem s hx))
            (fun x hx => hg x (List.mem_cons_of_mem t hx)) h)

/-- A match is a run of updates in the fresh scope. -/
theorem Pattern.matchGoal_evolves {condition goal : Pattern} (hk : k.Over U)
    (hc : Pattern.Each (Term.Over U) condition) (hg : Pattern.Each (Term.Over U) goal)
    (h : Pattern.matchGoal condition goal k judge = .ok (some k')) :
    k.startMatching.Evolves U k' := by
  rw [Pattern.matchGoal] at h
  split at h
  · refine Pattern.matchTerms_evolves ⟨hk.statuses, fun hl => ?_⟩ hc hg h
    simp [Env.referent?, Env.startMatching] at hl
  · cases h

/-! ## Flattening -/

/-- Declaring an own variable is an update at most. -/
theorem Env.declareLocal_evolves (k : Env) (l : Variable) :
    k.Evolves U (k.declareLocal l).2 := by
  cases hl : k.referent? l with
  | none => exact .single (.renamed hl)
  | some r => rw [declareLocal_of_bound hl]

/-- Expanding a variable is an update at most. -/
theorem Env.expandVariable_evolves {v : Variable} {r : Referent}
    (h : k.expandVariable v = .ok (r, k')) : k.Evolves U k' := by
  rw [expandVariable] at h
  split at h
  · split at h
    · cases h; exact .refl
    · cases h
  · split at h
    · cases h; exact .refl
    · have := k.declareLocal_evolves (U := U) v
      rw [Except.ok.inj h] at this
      exact this

namespace Expr

/-- A term is flattened to itself, and a variable to what it stands for. -/
theorem flatten_term_cases {t : Term} {x : FlatTerm} (h : (term t).flatten k = .ok x) :
    (∃ v r, t = .var v ∧ k.expandVariable v = .ok (r, x.env) ∧ x = ⟨r.toTerm, .empty, x.env⟩) ∨
      (∀ v, t ≠ .var v) ∧ x = ⟨t, .empty, k⟩ := by
  cases t with
  | var v =>
    rw [flatten] at h
    split at h
    · cases h
    · rename_i r k' hv
      cases h
      exact Or.inl ⟨v, r, rfl, hv, rfl⟩
  | keyword a => simp only [flatten] at h; cases h; exact Or.inr ⟨by simp, rfl⟩
  | const c => simp only [flatten] at h; cases h; exact Or.inr ⟨by simp, rfl⟩
  | hole => simp only [flatten] at h; cases h; exact Or.inr ⟨by simp, rfl⟩

/-- A phrase is flattened to a temporary that is defined by its flattened elements. -/
theorem flatten_phrase_cases {es : List Expr} {x : FlatTerm} (h : (phrase es).flatten k = .ok x) :
    ∃ y, flattenAll es .empty k = .ok y ∧
      x = ⟨.var (.temporary phraseStem y.env.next),
        y.prelude.conj (.define (.temporary phraseStem y.env.next) y.terms),
        (y.env.issueTemporary phraseStem).2⟩ := by
  rw [flatten] at h
  split at h
  · cases h
  · rename_i y hy
    cases h
    exact ⟨y, hy, rfl⟩

/-- The elements of a phrase are flattened one after the other. -/
theorem flattenAll_cons_cases {e : Expr} {es : List Expr} {before : Prelude} {x : FlatPhrase}
    (h : flattenAll (e :: es) before k = .ok x) :
    ∃ y z, e.flatten k = .ok y ∧ flattenAll es (before.conj y.prelude) y.env = .ok z ∧
      x = { z with terms := y.term :: z.terms } := by
  rw [flattenAll] at h
  split at h
  · cases h
  · rename_i y hy
    split at h
    · cases h
    · rename_i z hz
      cases h
      exact ⟨y, z, hy, hz, rfl⟩

mutual

/-- An expression is flattened by elementary updates. -/
theorem flatten_evolves : ∀ {e : Expr} {k : Env} {x : FlatTerm},
    e.flatten k = .ok x → k.Evolves U x.env
  | .term t, k, x, h => by
    rcases flatten_term_cases h with ⟨v, r, _, hv, _⟩ | ⟨_, rfl⟩
    · exact Env.expandVariable_evolves hv
    · exact .refl
  | .phrase es, k, x, h => by
    obtain ⟨y, hy, rfl⟩ := flatten_phrase_cases h
    exact (flattenAll_evolves hy).tail .issued

/-- Listed expressions are flattened by elementary updates. -/
theorem flattenAll_evolves : ∀ {es : List Expr} {before : Prelude} {k : Env}
    {x : FlatPhrase}, flattenAll es before k = .ok x → k.Evolves U x.env
  | [], before, k, x, h => by
    rw [flattenAll] at h
    cases h
    exact .refl
  | e :: es, before, k, x, h => by
    obtain ⟨y, z, hy, hz, rfl⟩ := flattenAll_cons_cases h
    have hrest : y.env.Evolves U z.env := flattenAll_evolves hz
    exact (flatten_evolves hy).trans hrest

end

end Expr

end Deduction
