import Deduction.Proofs.Assignment
import Deduction.Proofs.Computing
import Deduction.Proofs.Returning
import Mathlib.Data.List.Induction

/-!
# Joins

A conjunctive query over facts is answered by nested loops: the goals from left to right, for each
of them the facts from first to last, and for each fact one position after the other. What has been
found is a row, which gives some of the variables a constant. The join is computed without
environments and searches, and the search for the query brings just its rows, in their order and
as often as they occur: every environment that it passes through is that of a row.
-/

namespace Deduction

/-! ## Rows -/

/-- An entry of a fact: a keyword, an atom or a value. -/
inductive Cell where
  | keyword (word : Keyword)
  | const (value : Constant)
  deriving DecidableEq, Repr

/-- A cell as a term. -/
def Cell.toTerm : Cell → Term
  | keyword a => .keyword a
  | const c => .const c

/-- The cells of a fact, from the first position to the last. -/
abbrev Record := List Cell

/-- The facts as a program. -/
def Program.ofFacts (facts : List Record) : Program :=
  facts.map fun fact => .fact (fact.map Cell.toTerm)

/-- The first fact becomes the first rule. -/
theorem Program.ofFacts_cons (fact : Record) (facts : List Record) :
    ofFacts (fact :: facts) = .fact (fact.map Cell.toTerm) :: ofFacts facts := rfl

/-- Constants for some of the variables of a query. -/
abbrev Row := VarMap Constant

namespace Row

/-- The row after a cell was met where the goal has the term. A variable takes the first constant
that it meets; a hole takes any, and neither of them a keyword. -/
def fit (row : Row) : Cell → Term → Option Row
  | .keyword a, .keyword b => if a = b then some row else none
  | .const c, .const d => if c.Equals d then some row else none
  | .const c, .var v =>
    match row.get? v with
    | none => some (row.insert v c)
    | some d => if d.Equals c then some row else none
  | .const _, .hole => some row
  | .keyword _, .const _ | .keyword _, .var _ | .keyword _, .hole | .const _, .keyword _ => none

/-- The row after a fact was met by a goal of the same length, position by position. -/
def fitAll : Record → Pattern → Row → Option Row
  | [], [], row => some row
  | a :: as, t :: ts, row => (row.fit a t).bind (fitAll as ts)
  | [], _ :: _, _ | _ :: _, [], _ => none

/-- The rows after a goal was met by each of the facts. -/
def extensions (facts : List Record) (goal : Pattern) (row : Row) : List Row :=
  facts.filterMap fun fact => fitAll fact goal row

/-- The rows of the nested loops over the facts, one loop for each goal. -/
def join (facts : List Record) : List Pattern → Row → List Row
  | [], row => [row]
  | goal :: goals, row => (extensions facts goal row).flatMap (join facts goals)

/-- The innermost loop is that of the last goal. -/
theorem join_concat (facts : List Record) (goals : List Pattern) (goal : Pattern) (row : Row) :
    join facts (goals ++ [goal]) row = (join facts goals row).flatMap (extensions facts goal) := by
  induction goals generalizing row with
  | nil => simp [join]
  | cons g gs ih =>
    rw [List.cons_append, join, join, List.flatMap_assoc]
    exact congrArg (List.flatMap · (extensions facts g row)) (funext ih)

end Row

/-! ## The environment of a row -/

namespace Row

variable {U : Constant → Prop} {vs : List Variable} {row row' : Row}

/-- What the row says of a variable. -/
def status (row : Row) (v : Variable) : Status :=
  match row.get? v with
  | none => .unresolved
  | some c => .resolved c

/-- The environment of a query for the listed variables that knows just what the row says. -/
def env (vs : List Variable) (row : Row) : Env :=
  { Env.declaring vs with statuses := VarMap.tabulate vs row.status }

/-- In the environment of a row the listed variables have the status that the row says. -/
theorem get?_env (vs : List Variable) (row : Row) (v : Variable) :
    (row.env vs).statuses.get? v = if v ∈ vs then some (row.status v) else none :=
  VarMap.get?_tabulate vs row.status v

/-- The environment of a row declares the listed variables. -/
theorem declares_env_iff {v : Variable} : (row.env vs).declares v = true ↔ v ∈ vs := by
  rw [Env.declares_iff, get?_env]
  by_cases hv : v ∈ vs <;> simp [hv]

/-- The query starts with the row that says nothing. -/
theorem env_empty (vs : List Variable) : env vs VarMap.empty = .declaring vs := by
  have hstatuses : VarMap.tabulate vs (status VarMap.empty) =
      VarMap.constant vs .unresolved := by
    refine VarMap.ext_get? fun v => ?_
    rw [VarMap.get?_tabulate, VarMap.get?_constant]
    rfl
  rw [env, hstatuses]
  rfl

/-- A variable gets its constant by being resolved to it. -/
theorem env_insert {v : Variable} (hv : v ∈ vs) (c : Constant) :
    env vs (row.insert v c) = (row.env vs).setStatus v (.resolved c) := by
  have hstatuses : VarMap.tabulate vs (status (row.insert v c)) =
      (VarMap.tabulate vs row.status).insert v (.resolved c) := by
    refine VarMap.ext_get? fun w => ?_
    rw [VarMap.get?_insert, VarMap.get?_tabulate, VarMap.get?_tabulate]
    by_cases hw : w = v
    · subst hw
      simp [hv, status]
    · simp [hw, status, VarMap.get?_insert_of_ne]
  rw [env, hstatuses]
  rfl

/-- No variable is linked, so each one is the root of its chain. -/
theorem ends_env {v : Variable} (hv : v ∈ vs) :
    Env.Ends (row.env vs).statuses v ⟨v, row.get? v⟩ := by
  have hget := get?_env vs row v
  rw [if_pos hv, status] at hget
  cases hrow : row.get? v with
  | none =>
    rw [hrow] at hget
    exact .unresolved hget
  | some c =>
    rw [hrow] at hget
    exact .resolved hget

/-- The return from the environment of one row to that of another one keeps what was found. -/
theorem restore_env (vs : List Variable) (row row' : Row) :
    (row'.env vs).startMatching.restore (row.env vs) = .ok (row'.env vs) := by
  have hsize : (row'.env vs).startMatching.statuses.size = (row.env vs).statuses.size := by
    refine VarMap.size_eq_of_contains fun v => ?_
    rw [VarMap.contains, VarMap.contains, Env.startMatching, get?_env, get?_env]
    split <;> rfl
  exact Env.restore_of_size_eq hsize

/-- The constants of the row belong to the set, and its variables are listed. -/
def Within (U : Constant → Prop) (vs : List Variable) (row : Row) : Prop :=
  ∀ v c, row.get? v = some c → U c ∧ v ∈ vs

/-- The empty row is within every set. -/
theorem within_empty (U : Constant → Prop) (vs : List Variable) : Within U vs VarMap.empty :=
  fun _ _ h => nomatch h

/-- The terms of the goal have their variables listed. -/
theorem mem_of_within {v : Variable} (h : (Term.var v).Within U (.declaring vs)) : v ∈ vs := by
  rw [Term.within_var, ← env_empty, declares_env_iff] at h
  exact h

/-- A row takes its constants from the facts, and its variables from the goals. -/
theorem Within.fit (h : row.Within U vs) {a : Cell} {t : Term} (ha : a.toTerm.Over U)
    (ht : t.Within U (.declaring vs)) (hfit : row.fit a t = some row') : row'.Within U vs := by
  cases a with
  | keyword b =>
    cases t with
    | keyword b' =>
      obtain ⟨_, rfl⟩ : b = b' ∧ row = row' := by simpa [Row.fit] using hfit
      exact h
    | const d => cases hfit
    | var v => cases hfit
    | hole => cases hfit
  | const c =>
    cases t with
    | keyword b => cases hfit
    | const d =>
      obtain ⟨_, rfl⟩ : c.Equals d ∧ row = row' := by simpa [Row.fit] using hfit
      exact h
    | var v =>
      cases hrow : row.get? v with
      | none =>
        simp only [Row.fit, hrow] at hfit
        cases hfit
        intro w d hw
        rcases VarMap.get?_insert_cases hw with ⟨rfl, rfl⟩ | hw
        · exact ⟨ha _ rfl, mem_of_within ht⟩
        · exact h w d hw
      | some d =>
        obtain ⟨_, rfl⟩ : d.Equals c ∧ row = row' := by simpa [Row.fit, hrow] using hfit
        exact h
    | hole =>
      cases hfit
      exact h

/-- One position of a match: the environment of the row becomes that of the row after it. -/
theorem matchGoal_env (hU : Comparable U) (h : row.Within U vs) {a : Cell} {t : Term}
    (ha : a.toTerm.Over U) (ht : t.Within U (.declaring vs)) :
    ∃ o, a.toTerm.matchGoal (row.env vs).startMatching t = .ok o ∧
      o.after (row.env vs).startMatching =
        (row.fit a t).map fun row' => (row'.env vs).startMatching := by
  -- a comparison decides whether the row stays or there is none
  have hcompare : ∀ {c d}, U c → U d → ∃ o, Outcome.ofComparison (c.agrees d) = .ok o ∧
      o.after (row.env vs).startMatching =
        (if c.Equals d then some row else none).map fun row' => (row'.env vs).startMatching := by
    intro c d hc hd
    obtain ⟨verdict, hverdict⟩ := hU c d hc hd
    rw [hverdict, Outcome.ofComparison_ok]
    refine ⟨_, rfl, ?_⟩
    cases verdict <;> simp [Constant.Equals, hverdict, Outcome.after]
  cases a with
  | keyword b =>
    cases t with
    | keyword b' =>
      refine ⟨_, rfl, ?_⟩
      simp only [fit]
      split <;> rfl
    | const d => exact ⟨_, rfl, rfl⟩
    | var v => exact ⟨_, rfl, rfl⟩
    | hole => exact ⟨_, rfl, rfl⟩
  | const c =>
    cases t with
    | keyword b => exact ⟨_, rfl, rfl⟩
    | const d => exact hcompare (ha c rfl) (Term.within_const.mp ht)
    | hole => exact ⟨_, rfl, rfl⟩
    | var v =>
      have hv := mem_of_within ht
      have hends : Env.Ends (row.env vs).startMatching.statuses v ⟨v, row.get? v⟩ := ends_env hv
      cases hrow : row.get? v with
      | none =>
        rw [hrow] at hends
        refine ⟨_, hends.resolve_of_unknown c, ?_⟩
        simp only [fit, hrow, Option.map_some, env_insert hv]
        rfl
      | some d =>
        rw [hrow] at hends
        obtain ⟨o, ho, hafter⟩ := hcompare (h v d hrow).1 (ha c rfl)
        refine ⟨o, ?_, ?_⟩
        · rw [Cell.toTerm, Term.matchGoal, Env.resolve, hends.root_eq]
          exact ho
        · simpa only [fit, hrow] using hafter

/-- Fitting a fact to a goal stays within the set and the listed variables. -/
theorem Within.fitAll {fact : Record} {goal : Pattern} (h : row.Within U vs)
    (hfact : Pattern.Each (Term.Over U) (fact.map Cell.toTerm))
    (hgoal : Pattern.Each (Term.Within U (.declaring vs)) goal)
    (hfit : Row.fitAll fact goal row = some row') : row'.Within U vs := by
  induction fact generalizing goal row with
  | nil =>
    cases goal with
    | nil =>
      cases hfit
      exact h
    | cons t ts => cases hfit
  | cons a as ih =>
    cases goal with
    | nil => cases hfit
    | cons t ts =>
      obtain ⟨row₁, hfirst, hrest⟩ := Option.bind_eq_some_iff.mp hfit
      have hrow₁ := h.fit (hfact _ List.mem_cons_self) (hgoal t List.mem_cons_self) hfirst
      exact ih hrow₁ (fun u hu => hfact u (List.mem_cons_of_mem _ hu))
        (fun u hu => hgoal u (List.mem_cons_of_mem t hu)) hrest

/-- A fact fits goals of its own length only. -/
theorem length_eq_of_fitAll {fact : Record} {goal : Pattern}
    (h : fitAll fact goal row = some row') : fact.length = goal.length := by
  induction fact generalizing goal row with
  | nil =>
    cases goal with
    | nil => rfl
    | cons t ts => cases h
  | cons a as ih =>
    cases goal with
    | nil => cases h
    | cons t ts =>
      obtain ⟨row₁, _, hrest⟩ := Option.bind_eq_some_iff.mp h
      exact congrArg Nat.succ (ih hrest)

section

variable (hU : Comparable U) {fact : Record} {goal : Pattern} (h : row.Within U vs)
  (hgoal : Pattern.Each (Term.Within U (.declaring vs)) goal)

include hU h hgoal

/-- Position by position the environment of the row becomes that of the row after the fact. -/
theorem matchTerms_env (hfact : Pattern.Each (Term.Over U) (fact.map Cell.toTerm))
    (hlength : fact.length = goal.length) :
    Pattern.matchTerms (fact.map Cell.toTerm) goal (row.env vs).startMatching =
      .ok ((fitAll fact goal row).map fun row' => (row'.env vs).startMatching) := by
  induction fact generalizing goal row with
  | nil =>
    obtain rfl : goal = [] := List.length_eq_zero_iff.mp hlength.symm
    rfl
  | cons a as ih =>
    cases goal with
    | nil => cases hlength
    | cons t ts =>
      have ha := hfact _ List.mem_cons_self
      have ht := hgoal t List.mem_cons_self
      obtain ⟨o, ho, hafter⟩ := matchGoal_env hU h ha ht
      simp only [List.map_cons, Pattern.matchTerms, ho, hafter]
      cases hfit : row.fit a t with
      | none => simp [fitAll, hfit]
      | some row₁ =>
        have hrest := ih (h.fit ha ht hfit) (fun u hu => hgoal u (List.mem_cons_of_mem t hu))
          (fun u hu => hfact u (List.mem_cons_of_mem _ hu)) (Nat.succ.inj hlength)
        simpa [fitAll, hfit] using hrest

/-- A fact matches a goal just if it agrees with the row, and the match knows what the row after
it says. -/
theorem matchGoal_record (hfact : Pattern.Each (Term.Over U) (fact.map Cell.toTerm)) :
    Pattern.matchGoal (fact.map Cell.toTerm) goal (row.env vs) =
      .ok ((fitAll fact goal row).map fun row' => (row'.env vs).startMatching) := by
  by_cases hlength : fact.length = goal.length
  · rw [Pattern.matchGoal_of_length_eq (by simpa using hlength)]
    exact matchTerms_env hU h hgoal hfact hlength
  · have hnone : fitAll fact goal row = none :=
      Option.eq_none_iff_forall_ne_some.mpr fun row' hfit => hlength (length_eq_of_fitAll hfit)
    rw [Pattern.matchGoal_of_length_ne (by simpa using hlength), hnone]
    rfl

/-- A goal applied to the facts brings the rows after each of them, and nothing else. -/
theorem applications_ofFacts {facts : List Record}
    (hfacts : ∀ fact ∈ facts, Pattern.Each (Term.Over U) (fact.map Cell.toTerm)) (depth : Nat) :
    Selector.applications (Program.ofFacts facts).select (depth + 1) goal (row.env vs) =
      .ofList ((extensions facts goal row).map fun row' => .ok (row'.env vs)) := by
  rw [Selector.applications]
  generalize Selector.applications (Program.ofFacts facts).select depth = applied
  induction facts with
  | nil => rfl
  | cons fact facts ih =>
    have hrest := ih fun fact' hfact' => hfacts fact' (List.mem_cons_of_mem fact hfact')
    have hmatch : (Rule.fact (fact.map Cell.toTerm)).condition.matchGoal goal (row.env vs) = _ :=
      matchGoal_record hU h hgoal (hfacts fact List.mem_cons_self)
    rw [Program.ofFacts_cons, Program.select, Rule.matchGoal, hmatch, extensions,
      List.filterMap_cons]
    cases fitAll fact goal row with
    | none => exact hrest
    | some row' =>
      -- the body of a fact holds at once, and the return keeps what was found
      have hsolution : Match.solutions (Goal.start applied depth) (row.env vs)
          ⟨.fact (fact.map Cell.toTerm), (row'.env vs).startMatching⟩ =
          .one (.ok (row'.env vs)) :=
        congrArg Search.one (restore_env vs row row')
      change Search.append (Match.solutions _ _ _) (fun _ => Search.bind _ _) = _
      rw [hsolution, hrest]
      rfl

end

/-- The rows of a join take their constants from the facts, and their variables from the goals. -/
theorem Within.join {facts : List Record} {goals : List Pattern} (h : row.Within U vs)
    (hfacts : ∀ fact ∈ facts, Pattern.Each (Term.Over U) (fact.map Cell.toTerm))
    (hgoals : ∀ goal ∈ goals, Pattern.Each (Term.Within U (.declaring vs)) goal)
    (hrow' : row' ∈ Row.join facts goals row) : row'.Within U vs := by
  induction goals generalizing row with
  | nil =>
    obtain rfl := List.mem_singleton.mp hrow'
    exact h
  | cons goal goals ih =>
    obtain ⟨row₁, hrow₁, hrest⟩ := List.mem_flatMap.mp hrow'
    obtain ⟨fact, hfact, hfit⟩ := List.mem_filterMap.mp hrow₁
    exact ih (h.fitAll (hfacts fact hfact) (hgoals goal List.mem_cons_self) hfit)
      (fun g hg => hgoals g (List.mem_cons_of_mem goal hg)) hrest

end Row

/-! ## Queries -/

namespace Goal

variable {U : Constant → Prop} {vs : List Variable} {facts : List Record} {goals : List Pattern}

/-- A conjunction with an application writes nothing down when it is started. -/
theorem opening_conj_apply (p : Goal) (g : Pattern) (k : Env) :
    (p.conj (.apply g)).opening k = [] := by
  cases p <;> rfl

/-- A conjunction with an application applies the pattern under every solution, also where the
conjunction was simplified. -/
theorem explore_conj_apply {p : Goal} {k : Env} (hp : p.opening k = []) (g : Pattern)
    (applied : Pattern → Env → Search Item) (turns : Nat) :
    (p.conj (.apply g)).explore applied turns k =
      (p.explore applied turns k).under (applied g) := by
  have hand : (and p (.apply g)).explore applied turns k =
      (p.explore applied turns k).under (applied g) := by
    simp only [explore, hp, opening, Search.noted]
  cases p with
  | truth => exact (Search.one_under k (applied g)).symm
  | falsity => rfl
  | and p q => exact hand
  | or p q => exact hand
  | not p => exact hand
  | apply g' => exact hand
  | call es => exact hand
  | host h => exact hand

/-- The last goal of a list is joined last. -/
theorem all_concat (ps : List Goal) (p : Goal) : all (ps ++ [p]) = (all ps).conj p := by
  simp [all]

/-- A conjunction of applications writes nothing down when it is started. -/
theorem opening_all_apply (goals : List Pattern) (k : Env) :
    (all (goals.map .apply)).opening k = [] := by
  induction goals using List.reverseRecOn with
  | nil => rfl
  | append_singleton goals g _ =>
    rw [List.map_append, List.map_singleton, all_concat]
    exact opening_conj_apply _ _ _

/-- The search for a conjunctive query passes through the rows of the join, goal by goal. -/
theorem explore_all_apply (hU : Comparable U)
    (hfacts : ∀ fact ∈ facts, Pattern.Each (Term.Over U) (fact.map Cell.toTerm))
    (hgoals : ∀ goal ∈ goals, Pattern.Each (Term.Within U (.declaring vs)) goal) {row : Row}
    (hrow : row.Within U vs) (depth turns : Nat) :
    (all (goals.map .apply)).explore
      (Selector.applications (Program.ofFacts facts).select (depth + 1)) turns (row.env vs) =
      .ofList ((Row.join facts goals row).map fun row' => .ok (row'.env vs)) := by
  induction goals using List.reverseRecOn with
  | nil => rfl
  | append_singleton goals goal ih =>
    have hbefore : ∀ g ∈ goals, Pattern.Each (Term.Within U (.declaring vs)) g :=
      fun g hg => hgoals g (List.mem_append_left _ hg)
    have hgoal := hgoals goal (List.mem_append_right _ (List.mem_singleton_self goal))
    rw [List.map_append, List.map_singleton, all_concat,
      explore_conj_apply (opening_all_apply goals _), ih hbefore, Row.join_concat, List.map_flatMap]
    refine Search.bind_ofList fun row' hrow' => ?_
    exact Row.applications_ofFacts hU (hrow.join hfacts hbefore hrow') hgoal hfacts depth

/-- A conjunctive query over facts that can be compared meets no fault and brings the rows of the
join, in their order and as often as they occur. Each solution declares the variables of the query
and issues none, has no links and no bindings, and resolves just the variables that its row gives a
constant, to this constant. -/
theorem solve_all_apply (hU : Comparable U)
    (hfacts : ∀ fact ∈ facts, Pattern.Each (Term.Over U) (fact.map Cell.toTerm))
    (hgoals : ∀ goal ∈ goals, Pattern.Each (Term.Within U (.declaring vs)) goal) {depth : Nat}
    (hdepth : 0 < depth) (limit : Nat) (choice : Nat → Bool) :
    (all (goals.map .apply)).solve (Program.ofFacts facts).select depth limit choice
        (.declaring vs) =
      ⟨((Row.join facts goals VarMap.empty).map fun row => .ok (row.env vs)).take limit,
        decide ((Row.join facts goals VarMap.empty).length < limit), []⟩ ∧
    ∀ row ∈ Row.join facts goals VarMap.empty,
      (∀ v, (row.env vs).declares v = true ↔ v ∈ vs) ∧
      (∀ v w, (row.env vs).statuses.get? v ≠ some (.linked w)) ∧
      (∀ v c, (row.env vs).statuses.get? v = some (.resolved c) ↔ row.get? v = some c) ∧
      (row.env vs).locals = VarMap.empty ∧ (row.env vs).scope = .query ∧ (row.env vs).next = 0 := by
  have hempty := Row.within_empty U vs
  constructor
  · obtain ⟨depth, rfl⟩ := Nat.exists_eq_add_of_lt hdepth
    rw [Nat.zero_add, ← Row.env_empty, solve, opening_all_apply]
    simp only [explore_all_apply hU hfacts hgoals hempty, Search.take_ofList, List.length_map,
      List.nil_append]
  · intro row hrow
    have hwithin := hempty.join hfacts hgoals hrow
    refine ⟨fun v => Row.declares_env_iff, fun v w => ?_, fun v c => ?_, rfl, rfl, rfl⟩
    · rw [Row.get?_env, Row.status]
      split
      · cases row.get? v <;> simp
      · simp
    · rw [Row.get?_env, Row.status]
      cases hget : row.get? v with
      | none => simp
      | some d => simp [(hwithin v d hget).2]

end Goal

namespace Sample

/-- The record that relates a parent to a child. -/
def parentRecord (parent child : String) : Record :=
  [.const (.atom parent), .keyword (.named "parent-of"), .const (.atom child)]

/-- The parents of the family. -/
def parents : List Record := [
  parentRecord "tom" "bob",
  parentRecord "tom" "liz",
  parentRecord "bob" "ann",
  parentRecord "bob" "pat",
  parentRecord "liz" "jim"]

/-- Asks for somebody and a child of theirs that has children. -/
def grandparents : List Pattern :=
  [parentOf (.var (.named "x")) (.var (.named "y")), parentOf (.var (.named "y")) .hole]

/-- The row for one such pair. -/
def pair (parent child : String) : Row :=
  (VarMap.empty.insert (.named "x") (.atom parent)).insert (.named "y") (.atom child)

/-- Bob has two children, so he is found twice. -/
theorem grandparents_solved :
    (Goal.all (grandparents.map .apply)).solve (Program.ofFacts parents).select 1 5
        Search.alternate (.declaring (["x", "y"].map .named)) =
      ⟨[.ok ((pair "tom" "bob").env (["x", "y"].map .named)),
        .ok ((pair "tom" "bob").env (["x", "y"].map .named)),
        .ok ((pair "tom" "liz").env (["x", "y"].map .named))], true, []⟩ := by
  have hjoin : Row.join parents grandparents VarMap.empty =
      [pair "tom" "bob", pair "tom" "bob", pair "tom" "liz"] := by decide
  have hatoms : Comparable fun c => ∃ name, c = .atom name := by
    rintro c d ⟨a, rfl⟩ ⟨b, rfl⟩
    exact ⟨_, rfl⟩
  have hx : (Env.declaring (["x", "y"].map .named)).declares (.named "x") = true := by decide
  have hy : (Env.declaring (["x", "y"].map .named)).declares (.named "y") = true := by decide
  have hfacts : ∀ fact ∈ parents,
      Pattern.Each (Term.Over fun c => ∃ name, c = .atom name) (fact.map Cell.toTerm) := by
    simp [parents, parentRecord, Cell.toTerm, Pattern.Each, Term.Over]
  have hgoals : ∀ goal ∈ grandparents, Pattern.Each (Term.Within (fun c => ∃ name, c = .atom name)
      (.declaring (["x", "y"].map .named))) goal := by
    simp only [grandparents, parentOf, List.mem_cons, List.not_mem_nil, or_false, forall_eq_or_imp,
      forall_eq, Pattern.Each, Term.within_var, Term.within_keyword, Term.within_hole, hx, hy,
      and_self]
  have hsolve := (Goal.solve_all_apply hatoms hfacts hgoals (by decide : 0 < 1) 5
    Search.alternate).1
  rw [hsolve, hjoin]
  rfl

end Sample

end Deduction
