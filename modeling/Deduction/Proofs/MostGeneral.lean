import Deduction.Proofs.Consequence
import Deduction.Proofs.Unification

/-!
# Matches of stable constants

Comparison of stable constants is identity. So equal instances of two patterns are one
tuple, and the assignments under which an environment is true are the valuations that satisfy
it: a match admits every common instance of condition and goal, but nothing else.
-/

namespace Deduction

/-- Stable constants make up a lawful set. -/
theorem Constant.lawful_isStable : Constant.Lawful Constant.IsStable :=
  Constant.lawful_of_agrees_eq id (fun _ => trivial) fun _ d hc _ => hc.agrees_eq d

/-- A stable constant equals none but itself. -/
theorem Constant.IsStable.equals_iff {c d : Constant} (hc : c.IsStable) : c.Equals d ↔ c = d := by
  rw [Constant.Equals, hc.agrees_eq]
  simp

/-- A word as a term. -/
def Word.toTerm : Word → Term
  | keyword a => .keyword a
  | individual g => .const g

/-- Words are the same if they are equal as terms. -/
theorem Word.equals_toTerm_iff {v w : Word} : v.toTerm.Equals w.toTerm ↔ v = w := by
  cases v with
  | keyword a => cases w <;> simp [toTerm, Term.Equals, Term.agrees]
  | individual g =>
    cases w with
    | keyword b => simp [toTerm, Term.Equals, Term.agrees]
    | individual h =>
      rw [Word.individual.injEq, Subtype.ext_iff]
      exact g.2.equals_iff

section

variable {τ s own : Valuation}

/-- Without unstable constants the instances of a term are its ground instances. -/
theorem Term.hasInstance_iff {t u : Term} (ht : t.Over Constant.IsStable) :
    t.HasInstance τ u ↔ ∃ w, t.Grounds τ w ∧ u = w.toTerm := by
  constructor
  · intro h
    cases h with
    | keyword => exact ⟨_, .keyword, rfl⟩
    | @const c => exact ⟨_, .const (g := ⟨c, ht c rfl⟩), rfl⟩
    | var => exact ⟨_, .var, rfl⟩
    | @hole c => exact ⟨_, .hole (g := c), rfl⟩
  · rintro ⟨w, hw, rfl⟩
    cases hw with
    | keyword => exact .keyword
    | const => exact .const
    | var => exact .var
    | @hole g => exact .hole (c := g)

/-- Over stable constants, two terms unify when they ground to the same word. -/
theorem Term.unify_iff_grounds {a t : Term} (ha : a.Over Constant.IsStable)
    (ht : t.Over Constant.IsStable) :
    a.Unify own s t ↔ ∃ w, a.Grounds own w ∧ t.Grounds s w := by
  constructor
  · rintro ⟨_, _, hu, hw, h⟩
    obtain ⟨u, hau, rfl⟩ := (Term.hasInstance_iff ha).mp hu
    obtain ⟨w, htw, rfl⟩ := (Term.hasInstance_iff ht).mp hw
    obtain rfl := Word.equals_toTerm_iff.mp h
    exact ⟨u, hau, htw⟩
  · rintro ⟨w, hu, hw⟩
    exact ⟨_, _, (Term.hasInstance_iff ha).mpr ⟨w, hu, rfl⟩,
      (Term.hasInstance_iff ht).mpr ⟨w, hw, rfl⟩, Word.equals_toTerm_iff.mpr rfl⟩

/-- Two patterns have a common instance when their terms have one, position by position. -/
theorem Pattern.exists_grounds_cons_iff {a t : Term} {as ts : Pattern} :
    (∃ ws, Pattern.Grounds own (a :: as) ws ∧ Pattern.Grounds s (t :: ts) ws) ↔
      (∃ w, a.Grounds own w ∧ t.Grounds s w) ∧
        ∃ ws, Pattern.Grounds own as ws ∧ Pattern.Grounds s ts ws := by
  constructor
  · rintro ⟨_, _ | ⟨hw, hws⟩, _ | ⟨hw', hws'⟩⟩
    exact ⟨⟨_, hw, hw'⟩, _, hws, hws'⟩
  · rintro ⟨⟨w, hw, hw'⟩, ws, hws, hws'⟩
    exact ⟨w :: ws, .cons hw hws, .cons hw' hws'⟩

/-- Over stable constants, two patterns unify when they ground to the same tuple. -/
theorem Pattern.unify_iff_grounds {condition goal : Pattern}
    (hc : Pattern.Each (Term.Over Constant.IsStable) condition)
    (hg : Pattern.Each (Term.Over Constant.IsStable) goal) :
    Pattern.Unify own s condition goal ↔
      ∃ ws, Pattern.Grounds own condition ws ∧ Pattern.Grounds s goal ws := by
  rw [Pattern.unify_iff_forall₂]
  induction condition generalizing goal with
  | nil =>
    cases goal with
    | nil => exact iff_of_true .nil ⟨[], .nil, .nil⟩
    | cons t ts => exact iff_of_false (fun h => by cases h) fun ⟨_, h, h'⟩ => by cases h; cases h'
  | cons a as ih =>
    cases goal with
    | nil => exact iff_of_false (fun h => by cases h) fun ⟨_, h, h'⟩ => by cases h'; cases h
    | cons t ts =>
      rw [List.forall₂_cons, Pattern.exists_grounds_cons_iff,
        Term.unify_iff_grounds (hc a List.mem_cons_self) (hg t List.mem_cons_self),
        ih (fun x hx => hc x (List.mem_cons_of_mem a hx))
          fun x hx => hg x (List.mem_cons_of_mem t hx)]

end

namespace Env

variable {k : Env} {s own : Valuation}

/-- Over stable constants, to be true under an assignment is to be satisfied by the valuation. -/
theorem trueUnder_iff_satisfied : k.TrueUnder s ↔ k.Satisfied s := by
  refine forall₃_congr fun v st _ => ?_
  cases st with
  | unresolved => exact Iff.rfl
  | resolved c => exact (s v).2.equals_iff
  | linked w => exact (s v).2.equals_iff.trans Subtype.ext_iff.symm

/-- Over stable constants, the bindings are true when the valuations model them. -/
theorem trueWith_iff_models : k.TrueWith s own ↔ k.Models s own := by
  have hunder : ∀ r : Referent, r.under s = r.value s := fun r => by cases r <;> rfl
  constructor
  · intro h
    refine ⟨trueUnder_iff_satisfied.mp h.known, fun {l r} hl => ?_⟩
    rw [← hunder]
    exact (own l).2.equals_iff.mp (h.bindings hl)
  · intro h
    refine ⟨trueUnder_iff_satisfied.mpr h.satisfied, fun {l r} hl => ?_⟩
    rw [hunder]
    exact (own l).2.equals_iff.mpr (h.bindings hl)

/-- Binding an unbound variable of a rule adds the equation that it stands for. -/
theorem models_setLocal_iff {l : Variable} {r : Referent} (hl : k.referent? l = none) :
    (k.setLocal l r).Models s own ↔ k.Models s own ∧ own l = r.value s := by
  have hunder : r.under s = r.value s := by cases r <;> rfl
  rw [← trueWith_iff_models, trueWith_setLocal_iff hl, trueWith_iff_models, hunder,
    (own l).2.equals_iff]

end Env

/-- The valuations after a match are those before it under which condition and goal have a
common instance, whatever the bindings were before. -/
theorem Pattern.matchGoal_models_iff {k : Env} {condition goal : Pattern}
    (hU : k.Over Constant.IsStable)
    (hc : Pattern.Each (Term.Over Constant.IsStable) condition)
    (hg : Pattern.Each (Term.Over Constant.IsStable) goal) {result : Option Env}
    (h : Pattern.matchGoal condition goal k = .ok result) (s own : Valuation) :
    (∃ k', result = some k' ∧ k'.Models s own) ↔
      k.Satisfied s ∧ ∃ ws, Pattern.Grounds own condition ws ∧ Pattern.Grounds s goal ws := by
  have hmatch := Pattern.matchGoal_trueWith_iff Constant.lawful_isStable hU hc hg h s own
  rw [Pattern.unify_iff_grounds hc hg, Env.trueUnder_iff_satisfied] at hmatch
  simpa only [Env.trueWith_iff_models] using hmatch

end Deduction
