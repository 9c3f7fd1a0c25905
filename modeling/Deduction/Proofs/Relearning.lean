import Deduction.Proofs.Judging

/-!
# Learning again

Whatever was learned is known when it is met again. An attempt that succeeded is repeated in the
environment it led to: the variable is compared with the constant it was resolved to, linked
variables have the same root, and a bound variable of the rule agrees with its referent. None of
these comparisons can fail or find a difference, as payloads are compared with themselves. A whole
match can be repeated, too. It starts with no bindings and makes the same ones again, from left to
right, while everything else it is to learn is known.
-/

namespace Deduction

variable {judge : Judge} {k k₁ k' : Env} {o : Outcome}

namespace Env

/-! ## What was learned holds -/

/-- A variable that was resolved has a constant that agrees with the given one. -/
theorem tells_of_resolve (hself : ∀ p, judge p p = .ok true) {v : Variable} {c : Constant}
    (h : k.resolve v c judge = .ok o) (ho : o.after k = some k₁) :
    k₁.locals = k.locals ∧ k₁.TellsBy judge v c := by
  rw [resolve] at h
  split at h
  · cases h
  · rename_i last hroot
    have hends := root_eq_ok_iff.mp hroot
    cases h
    cases ho
    have hresolved : Ends (k.setStatus last (.resolved c)).statuses v ⟨last, some c⟩ := by
      simpa using hends.insert_resolved (c := c) hends.get?_last
    exact ⟨rfl, c, hresolved.valueOf_eq, Constant.agrees_refl hself c⟩
  · rename_i last d hroot
    obtain ⟨hagrees, rfl, rfl⟩ := Outcome.ofComparison_cases h ho
    exact ⟨rfl, d, (root_eq_ok_iff.mp hroot).valueOf_eq, hagrees⟩

/-- Variables that were linked are alike, whichever of the two roots was changed. -/
theorem alike_of_link (hself : ∀ p, judge p p = .ok true) {v w : Variable}
    (h : k.link v w judge = .ok o) (ho : o.after k = some k₁) :
    k₁.locals = k.locals ∧ k₁.AlikeBy judge v w := by
  obtain ⟨rv, rw, hv, hw, ⟨hlast, rfl⟩ | ⟨c, d, hc, hd, hcd⟩ | ⟨c, hne, hc, hnone, rfl⟩ |
    ⟨hne, hnone, rfl⟩⟩ := link_cases h
  · cases ho
    exact ⟨rfl, Or.inl ⟨rv, rw, hv.root_eq, hw.root_eq, hlast⟩⟩
  · obtain ⟨hagrees, rfl, rfl⟩ := Outcome.ofComparison_cases hcd ho
    exact ⟨rfl, Or.inr ⟨c, d, hc ▸ hv.valueOf_eq, hd ▸ hw.valueOf_eq, hagrees⟩⟩
  · -- the constant is handed on to the other root, so both have it
    cases ho
    have hunresolved := hw.get?_last_unresolved hnone
    have hv' : Ends (k.setStatus rw.last (.resolved c)).statuses v rv := by
      simpa [hne] using hv.insert_resolved (c := c) hunresolved
    have hw' : Ends (k.setStatus rw.last (.resolved c)).statuses w ⟨rw.last, some c⟩ := by
      simpa using hw.insert_resolved (c := c) hunresolved
    exact ⟨rfl, Or.inr ⟨c, c, hc ▸ hv'.valueOf_eq, hw'.valueOf_eq, Constant.agrees_refl hself c⟩⟩
  · -- the one root is linked to the other, so both chains end there
    cases ho
    have hunresolved := hv.get?_last_unresolved hnone
    have hv' : Ends (k.setStatus rv.last (.linked rw.last)).statuses v rw := by
      simpa using hv.insert_linked hunresolved hw.ends_last hne
    have hw' : Ends (k.setStatus rv.last (.linked rw.last)).statuses w rw := by
      simpa using hw.insert_linked hunresolved hw.ends_last hne
    exact ⟨rfl, Or.inl ⟨rw, rw, hv'.root_eq, hw'.root_eq, rfl⟩⟩

/-- Referents that were equated stand for the same from then on. -/
theorem holds_of_equate (hself : ∀ p, judge p p = .ok true) {p r : Referent}
    (h : k.equate p r judge = .ok o) (ho : o.after k = some k₁) :
    k₁.locals = k.locals ∧ k₁.HoldsBy judge p r := by
  cases p with
  | var v =>
    cases r with
    | var w => exact alike_of_link hself h ho
    | const c => exact tells_of_resolve hself h ho
  | const c =>
    cases r with
    | var w => exact tells_of_resolve hself h ho
    | const d =>
      cases h
      cases ho

/-- An unbound variable of the rule has been bound, or a bound one has been equated and the bindings
are as before. -/
theorem assignReferent_cases (hself : ∀ p, judge p p = .ok true) {l : Variable} {r : Referent}
    (h : k.assignReferent l r judge = .ok o) (ho : o.after k = some k₁) :
    k.referent? l = none ∧ r.Within (fun _ => True) k ∧ k₁ = k.setLocal l r ∨
      k₁.locals = k.locals ∧ k₁.BoundBy judge l r := by
  cases hl : k.referent? l with
  | none =>
    obtain ⟨hr, rfl⟩ := (assignReferent_of_unbound_iff hl).mp h
    cases ho
    exact Or.inl ⟨rfl, hr, rfl⟩
  | some p =>
    simp only [assignReferent, hl] at h
    split at h
    · cases h
    · rename_i hagrees
      cases h
      cases ho
      exact Or.inr ⟨rfl, p, hl, Or.inl hagrees⟩
    · rename_i hagrees
      obtain ⟨hlocals, hholds⟩ := holds_of_equate hself h ho
      have hl₁ : k₁.referent? l = some p := by rw [referent?, hlocals, ← hl, referent?]
      exact Or.inr ⟨hlocals, p, hl₁, Or.inr ⟨hagrees, hholds⟩⟩

end Env

/-! ## Matching again -/

/-- What matching two terms comes down to in all environments: a variable is to be resolved, a
referent is to be assigned to a variable of the rule, or nothing is learned. -/
inductive Term.Asks (judge : Judge) (s t : Term) : Prop
  | resolve (v : Variable) (c : Constant)
      (h : ∀ k, s.matchGoal k t judge = k.resolve v c judge) : Asks judge s t
  | assign (l : Variable) (r : Referent)
      (h : ∀ k, s.matchGoal k t judge = k.assignReferent l r judge) : Asks judge s t
  | nothing (x : Except Fault Outcome) (h : ∀ k, s.matchGoal k t judge = x)
      (hx : ∀ k₁, x ≠ .ok (.learned k₁)) : Asks judge s t

/-- What two terms ask for does not depend on the environment. -/
theorem Term.asks (judge : Judge) (s t : Term) : Asks judge s t := by
  have hclash : ∀ k₁, (.ok .clash : Except Fault Outcome) ≠ .ok (.learned k₁) := by simp
  have hknown : ∀ k₁, (.ok .known : Except Fault Outcome) ≠ .ok (.learned k₁) := by simp
  have hcompared : ∀ x k₁, Outcome.ofComparison x ≠ .ok (.learned k₁) := by
    intro x k₁
    rcases x with cause | _ | _ <;> simp [Outcome.ofComparison]
  cases s with
  | hole =>
    cases t with
    | keyword b => exact .nothing _ (fun _ => rfl) hclash
    | const d => exact .nothing _ (fun _ => rfl) hknown
    | var v => exact .nothing _ (fun _ => rfl) hknown
    | hole => exact .nothing _ (fun _ => rfl) hknown
  | keyword a =>
    cases t with
    | keyword b =>
      by_cases hab : a = b
      · exact .nothing _ (fun _ => by rw [matchGoal, if_pos hab]) hknown
      · exact .nothing _ (fun _ => by rw [matchGoal, if_neg hab]) hclash
    | const d => exact .nothing _ (fun _ => rfl) hclash
    | var v => exact .nothing _ (fun _ => rfl) hclash
    | hole => exact .nothing _ (fun _ => rfl) hclash
  | const c =>
    cases t with
    | keyword b => exact .nothing _ (fun _ => rfl) hclash
    | const d => exact .nothing _ (fun _ => rfl) (hcompared _)
    | var v => exact .resolve v c fun _ => rfl
    | hole => exact .nothing _ (fun _ => rfl) hknown
  | var l =>
    cases t with
    | keyword b => exact .nothing _ (fun _ => rfl) hclash
    | const d => exact .assign l (.const d) fun _ => rfl
    | var v => exact .assign l (.var v) fun _ => rfl
    | hole => exact .nothing _ (fun _ => rfl) hknown

/-- The match of two terms that led from the first environment to the second is repeated in all
that is learned later. With the bindings of the second environment there is nothing to learn, and
with those of the first one the same binding is made again. -/
def Term.Repeats (judge : Judge) (s t : Term) (k k₁ : Env) : Prop :=
  ∀ k' : Env, k₁.Extends k' → Env.Grounded k'.statuses →
    (k'.locals = k₁.locals → s.matchGoal k' t judge = .ok .known) ∧
    (k'.locals = k.locals → ∃ o', s.matchGoal k' t judge = .ok o' ∧
      o'.after k' = some { k' with locals := k₁.locals })

/-- Where the match bound nothing, it is enough that nothing is to be learned later. -/
theorem Term.Repeats.of_locals_eq {s t : Term} (hlocals : k₁.locals = k.locals)
    (h : ∀ k' : Env, k₁.Extends k' → Env.Grounded k'.statuses → k'.locals = k₁.locals →
      s.matchGoal k' t judge = .ok .known) : s.Repeats judge t k k₁ := by
  refine fun k' hk' hgrounded => ⟨h k' hk' hgrounded, fun hl => ?_⟩
  have hl₁ : k'.locals = k₁.locals := hl.trans hlocals.symm
  exact ⟨.known, h k' hk' hgrounded hl₁, by rw [← hl₁]; rfl⟩

/-- A match of two terms is repeated in all that is learned later. -/
theorem Term.repeats_of_matchGoal (hself : ∀ p, judge p p = .ok true) {s t : Term}
    (h : s.matchGoal k t judge = .ok o) (ho : o.after k = some k₁) :
    s.Repeats judge t k k₁ := by
  cases Term.asks judge s t with
  | resolve v c heq =>
    obtain ⟨hlocals, htells⟩ := Env.tells_of_resolve hself ((heq k).symm.trans h) ho
    refine .of_locals_eq hlocals fun k' hk' _ _ => ?_
    exact (heq k').trans (Env.resolve_of_tells (htells.mono hk'))
  | assign l r heq =>
    obtain ⟨hl, hr, rfl⟩ | ⟨hlocals, hbound⟩ :=
      Env.assignReferent_cases hself ((heq k).symm.trans h) ho
    · refine fun k' hk' _ => ⟨fun hl' => ?_, fun hl' => ?_⟩
      · have hr' : k'.referent? l = some r := by
          rw [Env.referent?, hl']
          exact VarMap.get?_insert_self _ _ _
        exact (heq k').trans (Env.assignReferent_of_bound
          ⟨r, hr', Or.inl (Referent.agrees_refl hself r)⟩)
      · have hnone : k'.referent? l = none := by rw [Env.referent?, hl', ← hl, Env.referent?]
        have hwithin : r.Within (fun _ => True) k' := by
          cases r with
          | const c => trivial
          | var v => exact hk'.declared hr
        have hassign : k'.assignReferent l r judge = .ok (.learned (k'.setLocal l r)) :=
          (Env.assignReferent_of_unbound_iff hnone).mpr ⟨hwithin, rfl⟩
        refine ⟨_, (heq k').trans hassign, ?_⟩
        rw [Outcome.after, Env.setLocal, hl']
        rfl
    · refine .of_locals_eq hlocals fun k' hk' hgrounded hl' => (heq k').trans ?_
      have hl : k'.referent? l = k₁.referent? l := by rw [Env.referent?, hl', Env.referent?]
      exact Env.assignReferent_of_bound (hbound.mono hk' hgrounded hl)
  | nothing x heq hne =>
    have hx := (heq k).symm.trans h
    cases o with
    | clash => cases ho
    | learned k₂ => exact absurd hx (hne k₂)
    | known =>
      cases ho
      exact .of_locals_eq rfl fun k' _ _ _ => (heq k').trans hx

/-- Patterns that were matched are matched again in what was learned, from the bindings that the
first match began with. -/
theorem Pattern.matchTerms_again (hself : ∀ p, judge p p = .ok true) {condition goal : Pattern}
    (hk : k.WellFormed) (h : condition.matchTerms goal k judge = .ok (some k')) :
    k'.WellFormed ∧ k.Continues k' ∧
      condition.matchTerms goal { k' with locals := k.locals } judge = .ok (some k') := by
  induction condition generalizing goal k with
  | nil =>
    simp only [matchTerms] at h ⊢
    cases h
    exact ⟨hk, .refl _, rfl⟩
  | cons s ss ih =>
    cases goal with
    | nil =>
      simp only [matchTerms] at h ⊢
      cases h
      exact ⟨hk, .refl _, rfl⟩
    | cons t ts =>
      rw [matchTerms] at h
      split at h
      · cases h
      · rename_i o ho
        split at h
        · cases h
        · rename_i k₁ hk₁
          have hagain := Term.repeats_of_matchGoal hself ho hk₁
          have hupdates := Term.matchGoal_updates k.over_univ (fun _ _ => trivial)
            (fun _ _ => trivial) ho hk₁
          obtain ⟨hwf₁, hcontinues⟩ := hupdates.evolves.wellFormed hk
          obtain ⟨hwf, hcontinues', hrest⟩ := ih hwf₁ h
          -- the second match knows all that the first one learned, whatever it has bound so far
          have hextends : k₁.Extends { k' with locals := k.locals } :=
            ⟨hcontinues'.kept, hcontinues'.declared, hcontinues'.issued, hcontinues'.next_le⟩
          obtain ⟨o', ho', hafter⟩ := (hagain _ hextends hwf.grounded).2 rfl
          refine ⟨hwf, hcontinues.trans hcontinues', ?_⟩
          rw [matchTerms]
          simp only [ho', hafter]
          exact hrest

/-- A pattern that was matched is matched again in what the match learned. -/
theorem Pattern.matchGoal_again (hself : ∀ p, judge p p = .ok true) {condition goal : Pattern}
    (hk : k.WellFormed) (h : condition.matchGoal goal k judge = .ok (some k')) :
    condition.matchGoal goal k' judge = .ok (some k') := by
  rw [matchGoal] at h ⊢
  split at h
  · rename_i hlength
    obtain ⟨_, hcontinues, hagain⟩ := matchTerms_again hself hk.startMatching h
    have hscope : k'.scope = .rule := hcontinues.scope
    have hstart : k'.startMatching = { k' with locals := k.startMatching.locals } := by
      rw [hscope]
      rfl
    rw [if_pos hlength, hstart]
    exact hagain
  · cases h

/-! ## Learning twice -/

/-- A success of the attempt is repeated in the environment it leads to, where there is nothing to
learn; and it had nothing to learn just when no status and no binding changed. -/
def Env.LearnsOnce (k : Env) (attempt : Env → Except Fault Outcome) : Prop :=
  ∀ o k', attempt k = .ok o → o.after k = some k' → attempt k' = .ok .known ∧
    (o = .known ↔ k'.statuses = k.statuses ∧ k'.locals = k.locals)

/-- A success of the match is repeated in the environment it leads to, with the same result. -/
def Env.MatchesAgain (k : Env) (attempt : Env → Except Fault (Option Env)) : Prop :=
  ∀ k', attempt k = .ok (some k') → attempt k' = .ok (some k')

namespace Env

/-- An attempt that takes one update at most and is known afterwards learns once. -/
theorem learnsOnce_of_updates {attempt : Env → Except Fault Outcome} (hk : k.Numbered)
    (h : ∀ {o k'}, attempt k = .ok o → o.after k = some k' →
      o.Updates (fun _ => True) k k' ∧ attempt k' = .ok .known) : k.LearnsOnce attempt :=
  fun _ _ ho hafter => ⟨(h ho hafter).2, (h ho hafter).1.known_iff hk⟩

/-- Matching two terms learns once. -/
theorem learnsOnce_matchGoal (hself : ∀ p, judge p p = .ok true) (hk : k.WellFormed)
    (s t : Term) : k.LearnsOnce fun k => s.matchGoal k t judge := by
  refine learnsOnce_of_updates hk.numbered fun {o k'} ho hafter => ?_
  have hupdates := Term.matchGoal_updates k.over_univ (fun _ _ => trivial) (fun _ _ => trivial)
    ho hafter
  have hgrounded := (hupdates.evolves.wellFormed hk).1.grounded
  exact ⟨hupdates, (Term.repeats_of_matchGoal hself ho hafter k' (.refl k') hgrounded).1 rfl⟩

/-- Whatever is learned in the environment under a judge can be learned again. -/
structure Relearns (k : Env) (judge : Judge := Payload.agrees) : Prop where
  resolve : ∀ v c, k.LearnsOnce fun k => k.resolve v c judge
  link : ∀ v w, k.LearnsOnce fun k => k.link v w judge
  assign : ∀ l t, k.LearnsOnce fun k => k.assign l t judge
  matchTerm : ∀ s t : Term, k.LearnsOnce fun k => s.matchGoal k t judge
  matchPattern : ∀ condition goal : Pattern, k.MatchesAgain fun k =>
    condition.matchGoal goal k judge

/-- A judge that finds payloads equal to themselves allows to learn all of it again. -/
theorem relearns (hself : ∀ p, judge p p = .ok true) (hk : k.WellFormed) : k.Relearns judge where
  resolve v c := learnsOnce_of_updates hk.numbered fun ho hafter =>
    ⟨resolve_updates ho hafter trivial, resolve_of_tells (tells_of_resolve hself ho hafter).2⟩
  link v w := learnsOnce_of_updates hk.numbered fun ho hafter =>
    ⟨link_updates k.over_univ ho hafter, link_of_alike (alike_of_link hself ho hafter).2⟩
  assign l t := by
    simpa only [Term.matchGoal_var] using learnsOnce_matchGoal hself hk (.var l) t
  matchTerm := learnsOnce_matchGoal hself hk
  matchPattern _ _ _ h := Pattern.matchGoal_again hself hk h

/-- What was learned by resolving or linking variables, by assigning a term to a variable of the
rule, or by matching two terms, is known when the attempt is made again, and patterns that were
matched are matched again with the same result. This is so under every judge that finds payloads
equal to themselves, whatever else it says of them. -/
theorem learnsOnce_matchesAgain (hk : k.WellFormed) :
    (∀ v c, k.LearnsOnce fun k => k.resolve v c) ∧
    (∀ v w, k.LearnsOnce fun k => k.link v w) ∧
    (∀ l t, k.LearnsOnce fun k => k.assign l t) ∧
    (∀ s t : Term, k.LearnsOnce fun k => s.matchGoal k t) ∧
    (∀ condition goal : Pattern, k.MatchesAgain fun k => condition.matchGoal goal k) ∧
    ∀ judge : Judge, (∀ p, judge p p = .ok true) → k.Relearns judge := by
  obtain ⟨hresolve, hlink, hassign, hterm, hpattern⟩ := relearns Payload.agrees_self hk
  exact ⟨hresolve, hlink, hassign, hterm, hpattern, fun judge hself => relearns hself hk⟩

end Env

namespace Sample

/-- Finds every payload equal to itself, and cannot compare it with any other. -/
def aloof (p q : Payload) : Comparison := if p = q then .ok true else .error .unstable

/-- A payload that can be compared only with itself. -/
def shy : Constant := .value (.unstable "shy")

/-- A query that has resolved `p` to the shy payload and knows nothing of `q`. -/
def shyQuery : Env :=
  (Env.declaring (["p", "q"].map .named)).setStatus (.named "p") (.resolved shy)

/-- The same after `q` got the payload of `p`. -/
def shyPair : Env := shyQuery.setStatus (.named "q") (.resolved shy)

/-- The condition has one variable twice, so `q` gets the shy payload in the place of `p`. Both are
resolved when this is repeated, and their payloads are compared. -/
theorem shyPair_matchesAgain :
    shyQuery.link (.named "p") (.named "q") = .ok (.learned shyPair) ∧
    shyPair.link (.named "p") (.named "q") = .ok .known ∧
    Pattern.matchGoal [.var (.named "x"), .var (.named "x")]
      [.var (.named "p"), .var (.named "q")] shyQuery aloof =
        .ok (some (shyPair.startMatching.setLocal (.named "x") (.var (.named "p")))) ∧
    Pattern.matchGoal [.var (.named "x"), .var (.named "x")]
      [.var (.named "p"), .var (.named "q")]
      (shyPair.startMatching.setLocal (.named "x") (.var (.named "p"))) aloof =
        .ok (some (shyPair.startMatching.setLocal (.named "x") (.var (.named "p")))) := by
  have hlink : shyQuery.link (.named "p") (.named "q") = .ok (.learned shyPair) := by
    decide +kernel
  have hmatch : Pattern.matchGoal [.var (.named "x"), .var (.named "x")]
      [.var (.named "p"), .var (.named "q")] shyQuery aloof =
        .ok (some (shyPair.startMatching.setLocal (.named "x") (.var (.named "p")))) := by
    decide +kernel
  have haloof : ∀ p, aloof p p = .ok true := fun p => if_pos rfl
  obtain ⟨_, hagain, _, _, _, hjudged⟩ :=
    Env.learnsOnce_matchesAgain (k := shyQuery) (by decide +kernel)
  exact ⟨hlink, (hagain _ _ _ _ hlink rfl).1, hmatch,
    (hjudged aloof haloof).matchPattern _ _ _ hmatch⟩

end Sample

end Deduction
