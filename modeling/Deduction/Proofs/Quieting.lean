import Deduction.Proofs.Answer
import Deduction.Proofs.Occurrence
import Deduction.Proofs.Ways
import Deduction.Host.Script
import Deduction.Sample.Family

/-!
# Faults of host goals

A fault of a host goal stays where it arises: no solution of another branch, of another solution
of a first goal or of another rule is lost, changed or moved by it. This is said by comparison with
the quiet program, in which the turns of host goals end in nothing where they would have ended in a
fault. Without negation, whatever the one search can be pulled for, the other one can be pulled
for, too, up to faults that the quiet one leaves out.
-/

namespace Deduction

/-! ## Quiet programs -/

/-- The turn that ends in nothing where the given one ends in a fault. -/
def Turn.quiet (t : Turn) : Turn := { t with outcome := .ok t.outcome.toOption.join }

/-- The host goal whose turns are quiet. -/
def Host.quiet (h : Host) : Host := { h with turn := fun k n => (h.turn k n).map Turn.quiet }

/-- The goal with quiet host goals. -/
def Goal.quiet : Goal → Goal
  | truth => truth
  | falsity => falsity
  | and p q => and p.quiet q.quiet
  | or p q => or p.quiet q.quiet
  | not p => not p.quiet
  | apply g => apply g
  | call es => call es
  | host h => host h.quiet

/-- The rule with quiet host goals in its body. -/
def Rule.quiet (r : Rule) : Rule := { r with body := r.body.quiet }

/-- The match of the quiet rule. -/
def Match.quiet (m : Match) : Match := { m with rule := m.rule.quiet }

/-- The program of the quiet rules. -/
def Program.quiet (program : Program) : Program := program.map Rule.quiet

/-- Host goals have no say in the selection of rules. -/
theorem Program.select_quiet (program : Program) (g : Pattern) (k : Env) :
    program.quiet.select g k = (program.select g k).map (Except.map Match.quiet) :=
  select_mapBody Goal.quiet program g k

namespace Search

variable {α β : Type}

/-! ## Faults left out of a list -/

/-- The second list is the first one with some of its faults left out. -/
inductive Thinned : List (Except Fault α) → List (Except Fault α) → Prop
  | nil : Thinned [] []
  | keep {as bs : List (Except Fault α)} (a : Except Fault α) (h : Thinned as bs) :
      Thinned (a :: as) (a :: bs)
  | drop {as bs : List (Except Fault α)} (f : Fault) (h : Thinned as bs) :
      Thinned (.error f :: as) bs

namespace Thinned

variable {as bs cs ds ls rs ls' rs' : List (Except Fault α)}

/-- Every list is thinned to itself. -/
theorem refl (as : List (Except Fault α)) : Thinned as as := by
  induction as with
  | nil => exact .nil
  | cons a as ih => exact .keep a ih

/-- Lists that are thinned can be joined. -/
theorem append (h : Thinned as bs) (h' : Thinned cs ds) : Thinned (as ++ cs) (bs ++ ds) := by
  induction h with
  | nil => exact h'
  | keep a _ ih => exact .keep a ih
  | drop f _ ih => exact .drop f ih

/-- What is left is part of the list, in the same order. -/
theorem sublist (h : Thinned as bs) : bs.Sublist as := by
  induction h with
  | nil => exact .slnil
  | keep a _ ih => exact ih.cons_cons a
  | drop f _ ih => exact ih.cons _

/-- The solutions are kept in their order. -/
theorem solutions_eq (h : Thinned as bs) :
    bs.filterMap Except.toOption = as.filterMap Except.toOption := by
  induction h with
  | nil => rfl
  | keep a _ ih => simp only [List.filterMap_cons, ih]
  | drop f _ ih => exact ih

/-- The start of the one list is the start of the other one, less faults. -/
theorem exists_take (h : Thinned as bs) (n : Nat) :
    ∃ m, m ≤ bs.length ∧ Thinned (as.take n) (bs.take m) := by
  induction h generalizing n with
  | nil => exact ⟨0, Nat.le_refl 0, by simpa using .nil⟩
  | keep a _ ih =>
    cases n with
    | zero => exact ⟨0, Nat.zero_le _, .nil⟩
    | succ n =>
      obtain ⟨m, hm, hthinned⟩ := ih n
      exact ⟨m + 1, Nat.succ_le_succ hm, .keep a hthinned⟩
  | drop f _ ih =>
    cases n with
    | zero => exact ⟨0, Nat.zero_le _, .nil⟩
    | succ n =>
      obtain ⟨m, hm, hthinned⟩ := ih n
      exact ⟨m, hm, .drop f hthinned⟩

/-- A first part of what is left is left of some first part. -/
theorem exists_take_before (h : Thinned as bs) (m : Nat) :
    ∃ n, n ≤ as.length ∧ Thinned (as.take n) (bs.take m) := by
  induction h generalizing m with
  | nil => exact ⟨0, Nat.le_refl 0, by simpa using .nil⟩
  | keep a _ ih =>
    cases m with
    | zero => exact ⟨0, Nat.zero_le _, .nil⟩
    | succ m =>
      obtain ⟨n, hn, hthinned⟩ := ih m
      exact ⟨n + 1, Nat.succ_le_succ hn, .keep a hthinned⟩
  | drop f _ ih =>
    obtain ⟨n, hn, hthinned⟩ := ih m
    exact ⟨n + 1, Nat.succ_le_succ hn, .drop f hthinned⟩

/-- Before an item that is kept, only faults were left out. -/
theorem exists_of_cons {a : Except Fault α} (h : Thinned as (a :: bs)) :
    ∃ dropped rest, as = dropped ++ a :: rest ∧ Thinned dropped [] ∧ Thinned rest bs := by
  generalize hcs : a :: bs = cs at h
  induction h with
  | nil => cases hcs
  | keep b h =>
    cases hcs
    exact ⟨[], _, rfl, .nil, h⟩
  | drop f _ ih =>
    obtain ⟨dropped, rest, rfl, hdropped, hrest⟩ := ih hcs
    exact ⟨.error f :: dropped, rest, rfl, .drop f hdropped, hrest⟩

/-- Faults are left out of two lists before or after they are merged. -/
theorem exists_interleaves (hmerged : Interleaves ls rs as) (hl : Thinned ls ls')
    (hr : Thinned rs rs') : ∃ as', Interleaves ls' rs' as' ∧ Thinned as as' := by
  induction hmerged generalizing ls' rs' with
  | nil =>
    cases hl
    cases hr
    exact ⟨[], .nil, .nil⟩
  | left a _ ih =>
    cases hl with
    | keep _ hl =>
      obtain ⟨as', hmerged, has⟩ := ih hl hr
      exact ⟨a :: as', .left a hmerged, .keep a has⟩
    | drop f hl =>
      obtain ⟨as', hmerged, has⟩ := ih hl hr
      exact ⟨as', hmerged, .drop f has⟩
  | right a _ ih =>
    cases hr with
    | keep _ hr =>
      obtain ⟨as', hmerged, has⟩ := ih hl hr
      exact ⟨a :: as', .right a hmerged, .keep a has⟩
    | drop f hr =>
      obtain ⟨as', hmerged, has⟩ := ih hl hr
      exact ⟨as', hmerged, .drop f has⟩

/-- A merge of two lists can be made before faults are left out of them: each fault goes in front
of the next item of its own list. -/
theorem exists_interleaves_before {as' : List (Except Fault α)} (hmerged : Interleaves ls' rs' as')
    (hl : Thinned ls ls') (hr : Thinned rs rs') :
    ∃ as, Interleaves ls rs as ∧ Thinned as as' := by
  induction hmerged generalizing ls rs with
  | nil =>
    have hmerged := (interleaves_nil_left rs).append_left ls
    rw [List.append_nil] at hmerged
    exact ⟨ls ++ rs, hmerged, hl.append hr⟩
  | left a _ ih =>
    obtain ⟨dropped, rest, rfl, hdropped, hrest⟩ := hl.exists_of_cons
    obtain ⟨as, hmerged, has⟩ := ih hrest hr
    exact ⟨dropped ++ a :: as, (hmerged.left a).append_left dropped, hdropped.append (has.keep a)⟩
  | right a _ ih =>
    obtain ⟨dropped, rest, rfl, hdropped, hrest⟩ := hr.exists_of_cons
    obtain ⟨as, hmerged, has⟩ := ih hl hrest
    exact ⟨dropped ++ a :: as, (hmerged.right a).append_right dropped,
      hdropped.append (has.keep a)⟩

end Thinned

/-! ## Searches that differ by faults -/

/-- Faults are left out of the first search: each way through the one search is matched by a way
through the other. -/
structure Thins (s t : Search (Except Fault α)) : Prop where
  forth : Follows Thinned s t
  back : Follows (flip Thinned) t s

variable {s t : Search (Except Fault α)}

/-- Every search is thinned to itself. -/
theorem Thins.refl (s : Search (Except Fault α)) : Thins s s where
  forth as _ h := ⟨as, h, .refl as⟩
  back as _ h := ⟨as, h, .refl as⟩

/-- Notes have no say in what a search is thinned to. -/
theorem Thins.noted {texts texts' : List String} {s t : Unit → Search (Except Fault α)}
    (h : Thins (s ()) (t ())) : Thins (noted texts s) (noted texts' t) where
  forth := h.forth.noted
  back := h.back.noted

/-- Searches that are thinned can run one after the other. -/
theorem Thins.append {s' t' : Search (Except Fault α)} (h : Thins s t) (h' : Thins s' t') :
    Thins (append s fun _ => s') (append t fun _ => t') where
  forth := h.forth.append (fun _ _ _ _ => Thinned.append) h'.forth
  back := h.back.append (fun _ _ _ _ => Thinned.append) h'.back

/-- Searches that are thinned can be interleaved. -/
theorem Thins.merge {left right left' right' : Unit → Search (Except Fault α)}
    (hleft : Thins (left ()) (left' ())) (hright : Thins (right ()) (right' ())) :
    Thins (merge left right) (merge left' right') where
  forth := hleft.forth.merge (fun _ _ _ _ _ => Thinned.exists_interleaves) hright.forth
  back := hleft.back.merge (fun _ _ _ _ _ => Thinned.exists_interleaves_before) hright.back

/-- The same item can be put ahead of thinned searches. -/
theorem Thins.item (a : Except Fault α) (h : Thins s t) :
    Thins (item a fun _ => s) (item a fun _ => t) := (Thins.refl (one a)).append h

/-- A fault on its own may be left out. -/
theorem thins_fault (f : Fault) : Thins (one (.error f) : Search (Except Fault α)) done where
  forth as ended h := by
    rcases brings_item_iff.mp h with ⟨rfl, rfl⟩ | ⟨later, rfl, hlater⟩
    · exact ⟨[], .stop, .nil⟩
    · rw [brings_done_iff.mp hlater]
      exact ⟨[], brings_done_iff.mpr rfl, .drop f .nil⟩
  back as ended h := by
    rw [brings_done_iff.mp h]
    exact ⟨[.error f], .item (brings_done_iff.mpr rfl), .drop f .nil⟩

/-- Where nothing but a fault comes first, all of it may be left out. -/
theorem Thins.skip {s' : Search (Except Fault α)} (h : Thins s' done) (h' : Thins s t) :
    Thins (Search.append s' fun _ => s) t := h.append h'

/-- What is run under the items of two searches, where nothing but a fault comes of a fault. -/
theorem Thins.bind {f g : Except Fault α → Search (Except Fault β)} (h : Thins s t)
    (hfault : ∀ e, ∃ e', f (.error e) = one (.error e')) (hfg : ∀ a, Thins (f a) (g a)) :
    Thins (bind s f) (bind t g) := by
  have halong : ∀ as bs ended, Thinned as bs →
      Thins ((along as ended).bind f) ((along bs ended).bind g) := by
    intro as bs ended hthinned
    induction hthinned with
    | nil => cases ended <;> exact .refl _
    | keep a _ ih => exact (hfg a).append ih
    | drop e _ ih =>
      obtain ⟨e', he'⟩ := hfault e
      have hdropped : Thins (f (.error e)) done := he' ▸ thins_fault e'
      exact hdropped.skip ih
  exact ⟨h.forth.bind fun as bs ended hthinned => (halong as bs ended hthinned).forth,
    h.back.bind fun bs as ended hthinned => (halong as bs ended hthinned).back⟩

/-- Searches stay thinned when their items are changed and faults stay faults. -/
theorem Thins.map {f : Except Fault α → Except Fault β} (h : Thins s t)
    (hf : ∀ e, ∃ e', f (.error e) = .error e') : Thins (map f s) (map f t) := by
  rw [map_eq_bind, map_eq_bind]
  exact h.bind (fun e => (hf e).imp fun _ => congrArg one) fun a => .refl _

/-- Searches under thinned searches are thinned, if they are so by themselves. -/
theorem Thins.under {s t : Search Item} {f g : Env → Search Item} (h : Thins s t)
    (hfg : ∀ k, Thins (f k) (g k)) : Thins (s.under f) (t.under g) := by
  refine Thins.bind h (fun e => ⟨e, rfl⟩) fun a => ?_
  cases a with
  | ok k => exact hfg k
  | error e => exact .refl _

end Search

open Search

/-! ## Goals and rules -/

/-- A quiet host goal has the same answers, less the faults. -/
theorem Host.thins_answers (h : Host) (bound : Nat) (k : Env) :
    Thins (h.answers bound k) (h.quiet.answers bound k) := by
  have hfrom : ∀ bound n, Thins (turnsFrom (h.turn k) bound n)
      (turnsFrom (h.quiet.turn k) bound n) := by
    intro bound
    induction bound with
    | zero => exact fun n => .refl _
    | succ bound ih =>
      intro n
      have hturn : h.quiet.turn k n = (h.turn k n).map Turn.quiet := rfl
      rw [turnsFrom, turnsFrom, hturn]
      cases h.turn k n with
      | none => exact .refl _
      | some t =>
        refine Thins.noted ?_
        obtain ⟨notes, f | _ | k'⟩ := t
        · exact (thins_fault f).skip (ih (n + 1))
        · exact ih (n + 1)
        · exact (ih (n + 1)).item (.ok k')
  exact hfrom bound 0

section

variable {applied applied' : Pattern → Env → Search Item}

/-- A prelude is thinned, if the applications of its definitions are. -/
theorem Prelude.thins_explore (happlied : ∀ g k, Thins (applied g k) (applied' g k))
    (prelude : Prelude) (k : Env) :
    Thins (prelude.explore applied k) (prelude.explore applied' k) := by
  induction prelude generalizing k with
  | empty => exact .refl _
  | define t es => exact happlied _ k
  | both p q ihp ihq => exact (ihp k).under ihq

/-- A quiet goal has the same solutions, less faults, if its applications do. -/
theorem Goal.thins_explore (happlied : ∀ g k, Thins (applied g k) (applied' g k)) (turns : Nat)
    {p : Goal} (hp : p.Affirmative) (k : Env) :
    Thins (p.explore applied turns k) (p.quiet.explore applied' turns k) := by
  induction p generalizing k with
  | truth => exact .refl _
  | falsity => exact .refl _
  | and p q ihp ihq => exact (Thins.noted (ihp hp.1 k)).under fun k' => .noted (ihq hp.2 k')
  | or p q ihp ihq => exact (ihp hp.1 k).merge (ihq hp.2 k)
  | not p _ => exact hp.elim
  | apply g => exact happlied g k
  | call es =>
    simp only [Goal.quiet, Goal.explore]
    split
    · exact .refl _
    · exact (Prelude.thins_explore happlied _ _).under (happlied _)
  | host h => exact h.thins_answers turns k

end

namespace Program

variable {program : Program}

/-- The applications of the rules of the quiet program, at every depth. -/
theorem thins_applications (hprogram : program.Affirmative) (depth : Nat) (g : Pattern)
    (k : Env) : Thins (Selector.applications program.select depth g k)
      (Selector.applications program.quiet.select depth g k) := by
  induction depth generalizing g k with
  | zero => exact .refl _
  | succ depth ih =>
    rw [Selector.applications, Selector.applications, select_quiet]
    have hbody : ∀ m, .ok m ∈ program.select g k → m.rule.body.Affirmative :=
      fun m hm => hprogram _ (matchGoal_of_mem_select hm).1
    -- match by match, as a fault of the selection is handed on by both programs
    generalize program.select g k = selected at hbody
    induction selected with
    | nil => exact .refl _
    | cons m ms ihms =>
      refine Thins.append ?_ (ihms fun m hm => hbody m (List.mem_cons_of_mem _ hm))
      cases m with
      | error f => exact .refl _
      | ok m =>
        have hstart : Thins
            (m.rule.body.start (Selector.applications program.select depth) depth m.env)
            (m.rule.body.quiet.start (Selector.applications program.quiet.select depth) depth
              m.env) :=
          .noted (Goal.thins_explore ih depth (hbody m List.mem_cons_self) m.env)
        exact hstart.map fun e => ⟨e, rfl⟩

end Program

/-- The second pull brought the solutions of the first one, in their order, and no items beside
those of the first one; both have come to the end or both have not. -/
structure Search.Pulled.Quieter (pulled quiet : Pulled Item) : Prop where
  sublist : quiet.items.Sublist pulled.items
  solutions : quiet.items.filterMap Except.toOption = pulled.items.filterMap Except.toOption
  ended : quiet.ended = pulled.ended

/-- Without negation, faults of host goals cost no solution. For each way in which the disjunctions
of a search are interleaved there is one for the search of the quiet program, and the other way
around, such that all that can be pulled of the one search can be pulled of the other one, less
faults: the same solutions in the same order, and the end if it was seen. -/
theorem Goal.solve_quiet {program : Program} {goal : Goal} (hprogram : program.Affirmative)
    (hgoal : goal.Affirmative) (depth : Nat) (k : Env) :
    (∀ choice, ∃ choice', ∀ limit, ∃ limit',
      (goal.solve program.select depth limit choice k).Quieter
        (goal.quiet.solve program.quiet.select depth limit' choice' k)) ∧
    (∀ choice', ∃ choice, ∀ limit', ∃ limit,
      (goal.solve program.select depth limit choice k).Quieter
        (goal.quiet.solve program.quiet.select depth limit' choice' k)) := by
  have hthins := Goal.thins_explore (Program.thins_applications hprogram depth) depth hgoal k
  constructor
  · intro choice
    obtain ⟨choice', hpulls⟩ := hthins.forth.exists_choice (fun _ _ n h => h.exists_take n) choice
    refine ⟨choice', fun limit => ?_⟩
    obtain ⟨limit', hthinned, hended⟩ := hpulls limit
    exact ⟨limit', hthinned.sublist, hthinned.solutions_eq, hended.symm⟩
  · intro choice'
    obtain ⟨choice, hpulls⟩ :=
      hthins.back.exists_choice (fun _ _ m h => Thinned.exists_take_before h m) choice'
    refine ⟨choice, fun limit' => ?_⟩
    obtain ⟨limit, hthinned, hended⟩ := hpulls limit'
    exact ⟨limit, Thinned.sublist hthinned, Thinned.solutions_eq hthinned, hended⟩

namespace Sample

/-- Two steps, and what is reached by steps. Between a step and the next one a host goal gives up,
beside a branch that goes on. -/
def stumbling : Program := [
  .fact [.const (.atom "a"), .keyword (.named "next-to"), .const (.atom "b")],
  .fact [.const (.atom "b"), .keyword (.named "next-to"), .const (.atom "c")],
  ⟨[.var (.named "x"), .keyword (.named "reaches"), .var (.named "y")],
    .or (.call [written "x", .term (.keyword (.named "next-to")), written "y"])
      (.all [
        .call [written "x", .term (.keyword (.named "next-to")), written "z"],
        .or (.host (.script "step" 0 (.action (.giveUp "stumbled")))) .truth,
        .call [written "z", .term (.keyword (.named "reaches")), written "y"]])⟩]

/-- Asks what is reached from the start. -/
def reachedFromStart : Goal :=
  .apply [.const (.atom "a"), .keyword (.named "reaches"), .var (.named "who")]

/-- No body has a negation. -/
theorem stumbling_affirmative : stumbling.Affirmative := by
  simp [Program.Affirmative, stumbling, Rule.fact, Goal.all, Goal.conj, Goal.Affirmative]

/-- Two faults are met between the two solutions, and without the faults there are the same two
solutions. -/
theorem stumbling_quiet :
    (reachedFromStart.solve stumbling.select 4 9 alternate
      (.declaring [.named "who"])).items.map (·.toOption.isSome) = [true, false, false, true] ∧
    (reachedFromStart.solve stumbling.select 4 9 alternate
      (.declaring [.named "who"])).ended = true ∧
    ∃ limit' choice', (reachedFromStart.solve stumbling.select 4 9 alternate
      (.declaring [.named "who"])).Quieter (reachedFromStart.quiet.solve stumbling.quiet.select 4
        limit' choice' (.declaring [.named "who"])) := by
  have hgoal : reachedFromStart.Affirmative := trivial
  obtain ⟨choice', hpulls⟩ := (Goal.solve_quiet stumbling_affirmative hgoal 4
    (.declaring [.named "who"])).1 alternate
  obtain ⟨limit', hquieter⟩ := hpulls 9
  exact ⟨by decide +kernel, by decide +kernel, limit', choice', hquieter⟩

end Sample

end Deduction
