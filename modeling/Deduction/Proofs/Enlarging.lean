import Deduction.Proofs.Straight
import Deduction.Proofs.Occurrence
import Deduction.Sample.Family

/-!
# Programs with one more rule

A rule that is added to the end of a program adds items to a search and takes none away, as long as
nothing is negated. The new rule may be tried in every nested application, so the items that it adds
stand anywhere among the others. Each way through the larger search that comes to the end passes,
among others, the items of a way through the smaller search that comes to the end. Without
disjunctions these are the only ways.
-/

namespace Deduction

namespace Search

variable {α β : Type}

/-! ## Searches with items left out -/

/-- Each way through the first search passes all items of a way through the second one, in their
order, and beside them others. -/
def Contains (s t : Search α) : Prop := Follows (fun as bs => bs.Sublist as) s t

namespace Contains

variable {s t : Search α}

/-- Every search contains itself. -/
theorem refl (s : Search α) : Contains s s := fun as _ h => ⟨as, h, List.Sublist.refl as⟩

/-- Notes have no say in what a search contains. -/
theorem noted {texts texts' : List String} {s t : Unit → Search α} (h : Contains (s ()) (t ())) :
    Contains (Search.noted texts s) (Search.noted texts' t) := Follows.noted h

/-- Searches that run one after another contain what they contain in turn. -/
theorem append {s' t' : Search α} (h : Contains s t) (h' : Contains s' t') :
    Contains (Search.append s fun _ => s') (Search.append t fun _ => t') :=
  Follows.append (fun _ _ _ _ => List.Sublist.append) h h'

/-- A whole search may be left out. -/
theorem skip (h : Contains s t) (before : Search α) :
    Contains (Search.append before fun _ => s) t := by
  intro as ended has
  rcases brings_append_iff.mp has with ⟨_, rfl⟩ | ⟨first, later, _, hlater, rfl⟩
  · exact ⟨[], .stop, List.nil_sublist as⟩
  · obtain ⟨bs, hbs, hsub⟩ := h later ended hlater
    exact ⟨bs, hbs, hsub.trans (List.sublist_append_right first later)⟩

/-- Everything may be left out. -/
theorem nothing (s : Search α) : Contains s Search.done := by
  have hall := skip (refl Search.done) s
  rwa [append_done] at hall

/-- What is run under fewer items brings fewer items. -/
theorem bind {f g : α → Search β} (h : Contains s t) (hfg : ∀ a, Contains (f a) (g a)) :
    Contains (Search.bind s f) (Search.bind t g) := by
  refine Follows.bind h fun as bs ended hsub => ?_
  -- item by item: what is run under an item that was left out is left out as a whole
  induction hsub with
  | slnil => cases ended <;> exact refl _
  | cons a _ ih => exact skip ih (f a)
  | cons_cons a _ ih => exact append (hfg a) ih

/-- Containment is kept when the items of both searches are changed alike. -/
theorem map (f : α → β) (h : Contains s t) : Contains (Search.map f s) (Search.map f t) := by
  rw [map_eq_bind, map_eq_bind]
  exact h.bind fun a => refl _

/-- A search under another one contains what is contained in both of them. -/
theorem under {s t : Search Item} {f g : Env → Search Item} (h : Contains s t)
    (hfg : ∀ k, Contains (f k) (g k)) : Contains (s.under f) (t.under g) := by
  refine bind h fun i => ?_
  cases i with
  | ok k => exact hfg k
  | error e => exact refl _

/-- Items are left out of two lists before or after they are merged. -/
private theorem exists_interleaves {ls rs as ls' rs' : List α} (hmerged : Interleaves ls rs as)
    (hl : ls'.Sublist ls) (hr : rs'.Sublist rs) :
    ∃ as', Interleaves ls' rs' as' ∧ as'.Sublist as := by
  induction hmerged generalizing ls' rs' with
  | nil =>
    cases hl
    cases hr
    exact ⟨[], .nil, .slnil⟩
  | left a _ ih =>
    cases hl with
    | cons _ hl =>
      obtain ⟨as', hmerged, hsub⟩ := ih hl hr
      exact ⟨as', hmerged, hsub.cons a⟩
    | cons_cons _ hl =>
      obtain ⟨as', hmerged, hsub⟩ := ih hl hr
      exact ⟨a :: as', .left a hmerged, hsub.cons_cons a⟩
  | right a _ ih =>
    cases hr with
    | cons _ hr =>
      obtain ⟨as', hmerged, hsub⟩ := ih hl hr
      exact ⟨as', hmerged, hsub.cons a⟩
    | cons_cons _ hr =>
      obtain ⟨as', hmerged, hsub⟩ := ih hl hr
      exact ⟨a :: as', .right a hmerged, hsub.cons_cons a⟩

/-- Interleaved searches contain the interleavings of what they contain. -/
theorem merge {left right left' right' : Unit → Search α} (hleft : Contains (left ()) (left' ()))
    (hright : Contains (right ()) (right' ())) :
    Contains (Search.merge left right) (Search.merge left' right') :=
  Follows.merge (fun _ _ _ _ _ => exists_interleaves) hleft hright

/-- Where there are no forks, the end of the larger search is the end of the smaller one. -/
theorem take_ended {s t : Unit → Search α} (h : Contains (s ()) (t ())) (ht : (t ()).Straight)
    {choice : Nat → Bool} {limit : Nat} (hended : (take choice limit s).ended = true)
    (choice' : Nat → Bool) : (take choice' limit t).ended = true ∧
      (take choice' limit t).items.Sublist (take choice limit s).items := by
  obtain ⟨hitems, hseen⟩ := take_eq_follow choice limit s
  obtain ⟨hitems', hseen'⟩ := take_eq_follow choice' limit t
  rw [hseen, Bool.and_eq_true, decide_eq_true_eq] at hended
  obtain ⟨hend, hlength⟩ := hended
  have hway := brings_follow choice (s ()) 0
  rw [hend] at hway
  obtain ⟨bs, hbs, hsub⟩ := h _ _ hway
  have hroom : bs.length < limit := Nat.lt_of_le_of_lt hsub.length_le hlength
  rw [hitems, hitems', hseen', ht.follow_of_brings hbs choice' 0,
    List.take_of_length_le (Nat.le_of_lt hroom), List.take_of_length_le (Nat.le_of_lt hlength)]
  exact ⟨by simpa using hroom, hsub⟩

end Contains

end Search

open Search

/-! ## Goals and rules -/

section

variable {applied applied' : Pattern → Env → Search Item}

/-- A prelude is explored with the contained items, if patterns are applied so. -/
theorem Prelude.contains_explore (happlied : ∀ g k, Contains (applied g k) (applied' g k))
    (prelude : Prelude) (k : Env) :
    Contains (prelude.explore applied k) (prelude.explore applied' k) := by
  induction prelude generalizing k with
  | empty => exact .refl _
  | define t es => exact happlied _ k
  | both p q ihp ihq => exact (ihp k).under ihq

/-- A goal has fewer items if its applications have fewer. -/
theorem Goal.contains_explore (happlied : ∀ g k, Contains (applied g k) (applied' g k))
    (turns : Nat) {p : Goal} (hp : p.Affirmative) (k : Env) :
    Contains (p.explore applied turns k) (p.explore applied' turns k) := by
  induction p generalizing k with
  | truth => exact .refl _
  | falsity => exact .refl _
  | and p q ihp ihq => exact (Contains.noted (ihp hp.1 k)).under fun k' => .noted (ihq hp.2 k')
  | or p q ihp ihq => exact (ihp hp.1 k).merge (ihq hp.2 k)
  | not p _ => exact hp.elim
  | apply g => exact happlied g k
  | call es =>
    simp only [Goal.explore]
    split
    · exact .refl _
    · exact (Prelude.contains_explore happlied _ _).under (happlied _)
  | host h => exact .refl _

end

namespace Program

variable {program : Program}

/-- Rules at the end of a program are tried after the others, if they are tried at all. -/
theorem exists_select_append (program rules : Program) (g : Pattern) (k : Env) :
    ∃ later, (program ++ rules).select g k = program.select g k ++ later := by
  induction program with
  | nil => exact ⟨select rules g k, rfl⟩
  | cons r rs ih =>
    obtain ⟨later, hlater⟩ := ih
    rw [List.cons_append, select, select, hlater]
    cases r.matchGoal g k with
    | error f => exact ⟨[], rfl⟩
    | ok m =>
      cases m with
      | none => exact ⟨later, rfl⟩
      | some m => exact ⟨later, rfl⟩

/-- The applications of the rules of the larger program, at every depth. -/
theorem contains_applications (hprogram : program.Affirmative) (rules : Program) (depth : Nat)
    (g : Pattern) (k : Env) :
    Contains (Selector.applications (program ++ rules).select depth g k)
      (Selector.applications program.select depth g k) := by
  induction depth generalizing g k with
  | zero => exact .refl _
  | succ depth ih =>
    obtain ⟨later, hlater⟩ := exists_select_append program rules g k
    rw [Selector.applications, Selector.applications, hlater]
    have hbody : ∀ m, .ok m ∈ program.select g k → m.rule.body.Affirmative :=
      fun m hm => hprogram _ (matchGoal_of_mem_select hm).1
    generalize program.select g k = selected at hbody
    induction selected with
    | nil => exact .nothing _
    | cons i is ihis =>
      refine Contains.append ?_ (ihis fun m hm => hbody m (List.mem_cons_of_mem _ hm))
      cases i with
      | error f => exact .refl _
      | ok m =>
        exact (Contains.noted (Goal.contains_explore ih depth
          (hbody m List.mem_cons_self) m.env)).map _

end Program

/-- Without negations and disjunctions, a rule that is added to a program adds items to a search and
does nothing else: where the search with the rule ends, so does the search without it, and its items
are found among those of the search with the rule, in the same order. The new rule itself may be
any rule. -/
theorem Goal.solve_sublist_of_concat {program : Program} {goal : Goal}
    (hprogram : program.Affirmative) (hundivided : program.Undivided) (hgoal : goal.Affirmative)
    (hgoal' : goal.Undivided) (rule : Rule) {depth limit : Nat} {choice : Nat → Bool} {k : Env}
    (hended : (goal.solve (Program.select (program ++ [rule])) depth limit choice k).ended = true)
    (choice' : Nat → Bool) :
    (goal.solve program.select depth limit choice' k).ended = true ∧
    (goal.solve program.select depth limit choice' k).items.Sublist
      (goal.solve (Program.select (program ++ [rule])) depth limit choice k).items := by
  have hcontains := Goal.contains_explore
    (Program.contains_applications hprogram [rule] depth) depth hgoal k
  have hstraight := Goal.straight_explore (Program.straight_applications hundivided depth) depth
    hgoal' k
  exact Contains.take_ended (s := fun _ => _) (t := fun _ => _) hcontains hstraight hended choice'

namespace Sample

/-- One more child of bob, in a family that is otherwise the same. -/
def youngest : Rule := parentFact "bob" "sue"

/-- Asks for the grandchildren of tom. -/
def grandchildOfTom : Goal :=
  .apply (grandparentOf (.const (.atom "tom")) (.var (.named "who")))

/-- The new grandchild is found between the others, who are found as before. -/
theorem grandchildren_sublist :
    (grandchildOfTom.solve (Program.select (family ++ [youngest])) 3 9 alternate
      (.declaring [.named "who"])).items.length = 4 ∧
    (grandchildOfTom.solve family.select 3 9 (fun _ => false)
      (.declaring [.named "who"])).items.length = 3 ∧
    (grandchildOfTom.solve family.select 3 9 (fun _ => false)
      (.declaring [.named "who"])).ended = true ∧
    (grandchildOfTom.solve family.select 3 9 (fun _ => false)
      (.declaring [.named "who"])).items.Sublist
      (grandchildOfTom.solve (Program.select (family ++ [youngest])) 3 9 alternate
        (.declaring [.named "who"])).items := by
  have hprogram : family.Affirmative := by
    simp [Program.Affirmative, family, parentFact, Rule.fact, Goal.all, Goal.conj,
      Goal.Affirmative]
  have hundivided : family.Undivided := by
    simp [Program.Undivided, family, parentFact, Rule.fact, Goal.all, Goal.conj, Goal.Undivided]
  have hgoal : grandchildOfTom.Affirmative := trivial
  have hgoal' : grandchildOfTom.Undivided := trivial
  have hended : (grandchildOfTom.solve (Program.select (family ++ [youngest])) 3 9 alternate
      (.declaring [.named "who"])).ended = true := by decide +kernel
  exact ⟨by decide +kernel, by decide +kernel,
    Goal.solve_sublist_of_concat hprogram hundivided hgoal hgoal' youngest hended fun _ => false⟩

end Sample

end Deduction
