import Deduction.Proofs.Simplifying

/-!
# Conjuncts

A conjunction runs its right side under every solution of its left side and hands faults on in
their place, so it has no say how conjunctions are nested: a goal is searched as the list of its
conjuncts is, each of them under the solutions of the ones before. The searches are equal, with the
same items and faults in the same places, the same forks and the same end. Hence whatever is pulled
from them is the same, also where a search never ends. Conjunctions of lists and the preludes of
flattened phrases are nested in different ways and mean the same.
-/

namespace Deduction

open Search

/-- One temporary and the terms it is defined by. -/
structure Definition where
  temporary : Variable
  elements : List Term
  deriving DecidableEq, Repr

/-- The rule application that solves a definition. -/
def Definition.goal (d : Definition) : Goal :=
  .apply (.var d.temporary :: .keyword .definition :: d.elements)

/-- The definitions of a prelude, in the order in which they are solved. -/
def Prelude.definitions : Prelude → List Definition
  | empty => []
  | define t es => [⟨t, es⟩]
  | both p q => p.definitions ++ q.definitions

namespace Goal

/-- The goals that are joined by the conjunctions of a goal, from left to right. A truth joins
nothing. -/
def conjuncts : Goal → List Goal
  | truth => []
  | and p q => p.conjuncts ++ q.conjuncts
  | p => [p]

/-- The conjuncts of a prelude are its definitions. -/
theorem conjuncts_toGoal (p : Prelude) :
    p.toGoal.conjuncts = p.definitions.map Definition.goal := by
  induction p with
  | empty => rfl
  | define t es => rfl
  | both p q ihp ihq =>
    rw [Prelude.toGoal, conjuncts, ihp, ihq, Prelude.definitions, List.map_append]

/-! ## Searching conjunctions -/

section

variable (applied : Pattern → Env → Search Item) (turns : Nat)

/-- Starts the listed goals one after the other, each of them under the solutions of the ones
before. -/
def startAll : List Goal → Env → Search Item
  | [], k => one (.ok k)
  | p :: ps, k => (p.start applied turns k).under (startAll ps)

variable {applied turns}

/-- A list of goals that is made of two lists is started as the one under the other. -/
theorem startAll_append (ps qs : List Goal) (k : Env) :
    startAll applied turns (ps ++ qs) k =
      (startAll applied turns ps k).under (startAll applied turns qs) := by
  induction ps generalizing k with
  | nil => exact (one_under k _).symm
  | cons p ps ih =>
    rw [List.cons_append, startAll, startAll, under_assoc]
    exact congrArg _ (funext ih)

/-- A single goal of a list is started as it is. -/
theorem startAll_singleton (p : Goal) (k : Env) :
    startAll applied turns [p] k = p.start applied turns k :=
  under_one _

/-- A conjunction writes nothing down before its left side is started. -/
theorem start_and (p q : Goal) (k : Env) :
    (and p q).start applied turns k =
      (p.start applied turns k).under (q.start applied turns) := rfl

/-- A goal is searched as the list of its conjuncts. -/
theorem start_eq_startAll (p : Goal) (k : Env) :
    p.start applied turns k = startAll applied turns p.conjuncts k := by
  induction p generalizing k with
  | truth => rfl
  | and p q ihp ihq =>
    rw [start_and, conjuncts, startAll_append, ihp]
    exact congrArg _ (funext ihq)
  | falsity => exact (startAll_singleton _ k).symm
  | or p q => exact (startAll_singleton _ k).symm
  | not p => exact (startAll_singleton _ k).symm
  | apply g => exact (startAll_singleton _ k).symm
  | call es => exact (startAll_singleton _ k).symm
  | host h => exact (startAll_singleton _ k).symm

/-- Leaving out truths, and what comes after a leading falsity, makes no difference to a
conjunction. -/
theorem start_conj (p q : Goal) (k : Env) :
    (p.conj q).start applied turns k =
      (p.start applied turns k).under (q.start applied turns) := by
  have htruth : ∀ p : Goal, p.start applied turns k =
      (p.start applied turns k).under (truth.start applied turns) := fun p => (under_one _).symm
  cases p with
  | truth => exact (one_under k _).symm
  | falsity =>
    cases q with
    | truth => exact htruth falsity
    | _ => rfl
  | _ =>
    cases q with
    | truth => exact htruth _
    | _ => rfl

/-- Conjunctions that are nested to the left. -/
theorem start_foldl {f : Goal → Goal → Goal}
    (hf : ∀ p q k, (f p q).start applied turns k =
      (p.start applied turns k).under (q.start applied turns)) (ps : List Goal) (p : Goal)
    (k : Env) : (ps.foldl f p).start applied turns k =
      (p.start applied turns k).under (startAll applied turns ps) := by
  induction ps generalizing p with
  | nil => exact (under_one _).symm
  | cons q ps ih =>
    rw [List.foldl_cons, ih, hf, under_assoc]
    rfl

/-- Conjunctions that are nested to the right. -/
theorem start_foldr (ps : List Goal) (k : Env) :
    (ps.foldr and truth).start applied turns k = startAll applied turns ps k := by
  induction ps generalizing k with
  | nil => rfl
  | cons p ps ih =>
    rw [List.foldr_cons, start_and, startAll]
    exact congrArg _ (funext ih)

/-- The conjunction of a list is started as the list. -/
theorem start_all (ps : List Goal) (k : Env) :
    (all ps).start applied turns k = startAll applied turns ps k :=
  (start_foldl start_conj ps truth k).trans (one_under k _)

end

end Goal

/-! ## Pulling -/

/-- Notes at the start of a search do not change the way through it. -/
theorem Search.follow_noted {α : Type} (choice : Nat → Bool) (texts : List String)
    (s : Unit → Search α) (forks : Nat) :
    follow choice (noted texts s) forks = follow choice (s ()) forks := by
  induction texts with
  | nil => rfl
  | cons t ts ih => exact ih

namespace Goal

/-- Goals that start the same search are solved with the same items and the same end. -/
theorem sameItems_solve {p p' : Goal} {select : Selector} {depth : Nat} {k : Env}
    (h : p.solutions select depth k = p'.solutions select depth k) (limit : Nat)
    (choice : Nat → Bool) :
    (p.solve select depth limit choice k).SameItems (p'.solve select depth limit choice k) := by
  rw [solutions, solutions, start, start] at h
  have hfollow : follow choice (p'.explore (select.applications depth) depth k) 0 =
      follow choice (p.explore (select.applications depth) depth k) 0 := by
    have hnoted := congrArg (fun s => follow choice s 0) h
    simpa only [follow_noted] using hnoted.symm
  obtain ⟨hitems, hended⟩ := sameItems_take (s := fun _ => _) (t := fun _ => _) hfollow limit
  exact ⟨hitems, hended⟩

/-- How conjunctions are nested has no say. Three goals are solved alike in either nesting, and
any two goals with the same conjuncts start the same search: under all rules, to every depth, in
every environment, and whatever decides the forks. So the same items and faults come in the same
places up to every limit, and the one search comes to its end when the other does. In particular
the conjunction of a list is solved as conjunctions nested to the left or to the right, and a
flattened phrase as the conjunction of its definitions and its own application. -/
theorem solve_nested_and (select : Selector) (depth : Nat) (k : Env) :
    (∀ p q r limit choice, (and (and p q) r).solve select depth limit choice k =
      (and p (and q r)).solve select depth limit choice k) ∧
    (∀ p p' : Goal, p.conjuncts = p'.conjuncts →
      p.solutions select depth k = p'.solutions select depth k ∧
      ∀ limit choice, (p.solve select depth limit choice k).SameItems
        (p'.solve select depth limit choice k)) ∧
    (∀ (ps : List Goal) limit choice,
      ((ps.foldl and truth).solve select depth limit choice k).SameItems
        ((all ps).solve select depth limit choice k)) ∧
    (∀ (ps : List Goal) limit choice,
      ((ps.foldr and truth).solve select depth limit choice k).SameItems
        ((all ps).solve select depth limit choice k)) ∧
    (∀ (x : FlatPhrase) limit choice, (x.goal.solve select depth limit choice k).SameItems
      ((all (x.prelude.definitions.map Definition.goal ++ [apply x.terms])).solve
        select depth limit choice k)) := by
  have hnested : ∀ {p p' : Goal}, p.conjuncts = p'.conjuncts →
      p.solutions select depth k = p'.solutions select depth k := by
    intro p p' h
    rw [solutions, solutions, start_eq_startAll, start_eq_startAll, h]
  refine ⟨fun p q r limit choice => ?_, fun p p' h => ⟨hnested h, sameItems_solve (hnested h)⟩,
    fun ps => sameItems_solve ?_, fun ps => sameItems_solve ?_, fun x => sameItems_solve ?_⟩
  · have hconjuncts : (and (and p q) r).conjuncts = (and p (and q r)).conjuncts :=
      List.append_assoc _ _ _
    have hexplore : (and (and p q) r).explore (select.applications depth) depth k =
        (and p (and q r)).explore (select.applications depth) depth k := hnested hconjuncts
    simp only [solve, hexplore]
    rfl
  · rw [solutions, solutions, start_all]
    exact (start_foldl start_and ps truth k).trans (one_under k _)
  · rw [solutions, solutions, start_all]
    exact start_foldr ps k
  · rw [solutions, solutions, start_all, startAll_append, FlatPhrase.goal, start_conj,
      start_eq_startAll x.prelude.toGoal, conjuncts_toGoal]
    exact congrArg _ (funext fun k' => (startAll_singleton _ k').symm)

end Goal

namespace Sample

/-- Asks for a child of tom. -/
def childOfTom : Goal := .apply (parentOf (.const (.atom "tom")) (.var (.named "c")))

/-- Asks for a child of the child. -/
def childOfChild : Goal := .apply (parentOf (.var (.named "c")) (.var (.named "d")))

/-- Asks about a variable that was never declared. -/
def childOfStranger : Goal := .apply (parentOf (.const (.atom "bob")) (.var (.named "s")))

/-- The stranger is a fault under each of the three grandchildren, and both nestings of the three
goals, with a truth in one of them, meet it in the same places. -/
theorem stranger_nested_and :
    (Goal.and (.and childOfTom childOfChild) childOfStranger).conjuncts =
      (Goal.and childOfTom (.and childOfChild (.and childOfStranger .truth))).conjuncts ∧
    ((Goal.and (.and childOfTom childOfChild) childOfStranger).solve family.select 2 9 alternate
      (.declaring (["c", "d"].map .named))).items =
      List.replicate 3 (.error (.unknownVariable (.named "s"))) ∧
    ((Goal.and (.and childOfTom childOfChild) childOfStranger).solve family.select 2 9 alternate
      (.declaring (["c", "d"].map .named))).SameItems
      ((Goal.and childOfTom (.and childOfChild (.and childOfStranger .truth))).solve
        family.select 2 9 alternate (.declaring (["c", "d"].map .named))) := by
  have hconjuncts : (Goal.and (.and childOfTom childOfChild) childOfStranger).conjuncts =
      (Goal.and childOfTom (.and childOfChild (.and childOfStranger .truth))).conjuncts := rfl
  exact ⟨hconjuncts, by decide +kernel,
    ((Goal.solve_nested_and family.select 2 _).2.1 _ _ hconjuncts).2 9 alternate⟩

end Sample

end Deduction
