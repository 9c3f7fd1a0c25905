import Deduction.Proofs.Answer
import Deduction.Proofs.Ways

/-!
# Searches without forks

Only disjunctions interleave two searches, and only interleaving makes a search fork. Where neither
the goal nor a rule has a disjunction there is one way through the search, so that what is pulled
does not depend on who decides the forks.
-/

namespace Deduction

/-- No part of a goal is a disjunction. -/
def Goal.Undivided : Goal → Prop
  | truth | falsity | apply _ | call _ | host _ => True
  | and p q => p.Undivided ∧ q.Undivided
  | or _ _ => False
  | not p => p.Undivided

/-- No rule has a disjunction in its body. -/
def Program.Undivided (program : Program) : Prop := ∀ r ∈ program, r.body.Undivided

namespace Search

variable {α β : Type}

/-- A search that never forks. -/
def Straight : Search α → Prop
  | done | cut => True
  | item _ rest | note _ rest => Straight (rest ())
  | fork _ _ => False

namespace Straight

variable {s : Search α}

/-- What decides forks has no say. -/
theorem follow_eq (h : s.Straight) (choice choice' : Nat → Bool) (forks forks' : Nat) :
    follow choice s forks = follow choice' s forks' := by
  induction s with
  | done => rfl
  | cut => rfl
  | item a rest ih => simp only [follow, ih () h]
  | note text rest ih => exact ih () h
  | fork l r => exact h.elim

/-- A way that comes to the end is the only one. -/
theorem follow_of_brings (h : s.Straight) {as : List α} (has : Brings s as true)
    (choice : Nat → Bool) (forks : Nat) : follow choice s forks = (as, true) := by
  obtain ⟨choice', _, hfollow⟩ := has.exists_follow forks
  exact (h.follow_eq choice choice' forks forks).trans (hfollow rfl)

/-! ### Combinators -/

/-- Notes do not fork a search. -/
theorem noted {texts : List String} {s : Unit → Search α} (h : (s ()).Straight) :
    (Search.noted texts s).Straight := by
  induction texts with
  | nil => exact h
  | cons t ts ih => exact ih

/-- Straight searches can run one after the other. -/
theorem append {t : Unit → Search α} (h : s.Straight) (ht : (t ()).Straight) :
    (Search.append s t).Straight := by
  induction s with
  | done => exact ht
  | cut => trivial
  | item a rest ih => exact ih () h
  | note text rest ih => exact ih () h
  | fork l r => exact h.elim

/-- A search stays straight when its items are followed up by straight ones. -/
theorem bind {f : α → Search β} (h : s.Straight) (hf : ∀ a, Emits s a → (f a).Straight) :
    (Search.bind s f).Straight := by
  induction s with
  | done => trivial
  | cut => trivial
  | item a rest ih => exact (hf a .here).append (ih () h fun b hb => hf b (.later hb))
  | note text rest ih => exact ih () h fun b hb => hf b (.note hb)
  | fork l r => exact h.elim

/-- A search stays straight when its items are changed. -/
theorem map {f : α → β} (h : s.Straight) : (Search.map f s).Straight := by
  induction s with
  | done => trivial
  | cut => trivial
  | item a rest ih => exact ih () h
  | note text rest ih => exact ih () h
  | fork l r => exact h.elim

/-- A list is straight. -/
theorem ofList (as : List α) : (Search.ofList as).Straight := by
  induction as with
  | nil => trivial
  | cons a as ih => exact ih

/-- A single item is straight. -/
theorem one (a : α) : (Search.one a).Straight := trivial

/-- A straight search under a straight one is straight. -/
theorem under {s : Search Item} {f : Env → Search Item} (h : s.Straight)
    (hf : ∀ k, (f k).Straight) : (s.under f).Straight := by
  refine h.bind fun i _ => ?_
  cases i with
  | ok k => exact hf k
  | error e => exact one _

/-- The negation of a straight search is straight. -/
theorem absent {s : Search Item} (h : s.Straight) (k : Env) : (s.absent k).Straight := by
  induction s with
  | done => exact one _
  | cut => trivial
  | item i rest _ =>
    cases i with
    | ok _ => trivial
    | error f => exact one _
  | note text rest ih => exact ih () h
  | fork l r => exact h.elim

end Straight

end Search

open Search

/-! ## Goals and rules -/

/-- The answers of a host goal come turn by turn. -/
theorem Host.straight_answers (h : Host) (bound : Nat) (k : Env) :
    (h.answers bound k).Straight := by
  have hfrom : ∀ bound n, (turnsFrom (h.turn k) bound n).Straight := by
    intro bound
    induction bound with
    | zero => exact fun n => trivial
    | succ bound ih =>
      intro n
      rw [turnsFrom]
      split
      · trivial
      · refine Straight.noted ?_
        split <;> exact ih (n + 1)
  exact hfrom bound 0

section

variable {applied : Pattern → Env → Search Item}

/-- A prelude is explored straight on, if patterns are applied so. -/
theorem Prelude.straight_explore (happlied : ∀ g k, (applied g k).Straight) (prelude : Prelude)
    (k : Env) : (prelude.explore applied k).Straight := by
  induction prelude generalizing k with
  | empty => exact .one _
  | define t es => exact happlied _ k
  | both p q ihp ihq => exact (ihp k).under ihq

/-- A goal without disjunctions is explored without forks, if its applications are. -/
theorem Goal.straight_explore (happlied : ∀ g k, (applied g k).Straight) (turns : Nat) {p : Goal}
    (hp : p.Undivided) (k : Env) : (p.explore applied turns k).Straight := by
  induction p generalizing k with
  | truth => exact .one _
  | falsity => trivial
  | and p q ihp ihq => exact (Straight.noted (ihp hp.1 k)).under fun k' => .noted (ihq hp.2 k')
  | or p q => exact hp.elim
  | not p ih => exact (Straight.noted (ih hp k)).absent k
  | apply g => exact happlied g k
  | call es =>
    rw [Goal.explore]
    split
    · exact .one _
    · exact (Prelude.straight_explore happlied _ _).under (happlied _)
  | host h => exact h.straight_answers turns k

end

/-- The rules of a program without disjunctions are applied without forks, at every depth. -/
theorem Program.straight_applications {program : Program} (hprogram : program.Undivided)
    (depth : Nat) (g : Pattern) (k : Env) :
    (Selector.applications program.select depth g k).Straight := by
  induction depth generalizing g k with
  | zero => trivial
  | succ depth ih =>
    refine (Straight.ofList _).bind fun i hi => ?_
    cases i with
    | error f => exact .one _
    | ok m =>
      have hbody := hprogram _ (matchGoal_of_mem_select (mem_of_emits_ofList hi)).1
      exact (Straight.noted (Goal.straight_explore ih depth hbody m.env)).map

end Deduction
