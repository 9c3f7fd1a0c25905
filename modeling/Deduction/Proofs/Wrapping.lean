import Deduction.Proofs.Framing
import Deduction.Sample.Family

/-!
# A goal as the body of a rule

A goal over named variables can be put into a rule of its own, with a keyword that no other
rule starts with and the variables as arguments. Applying that rule solves the goal in the
scope of the rule, where each variable is bound to itself, and hands the solutions back. The
search is the same, item by item, and the solutions tell the same of the variables of the
query. Only links between variables that have a constant may be gone: on the return such a
chain is replaced by its constant.
-/

namespace Deduction

open Search

/-- A keyword followed by named variables. -/
def Pattern.heading (word : String) (names : List String) : Pattern :=
  .keyword (.named word) :: names.map fun n => .var (.named n)

/-- The rule that a keyword with the listed variables stands for a goal. -/
def Rule.wrapping (word : String) (names : List String) (body : Goal) : Rule :=
  ⟨Pattern.heading word names, body⟩

/-! ## Selecting the rule -/

namespace Pattern

/-- A condition that starts otherwise does not match. -/
theorem matchGoal_heading_of_head?_ne {condition : Pattern} {word : String}
    (h : condition.head? ≠ some (.keyword (.named word))) (names : List String) (k : Env) :
    matchGoal condition (heading word names) k = .ok none := by
  cases condition with
  | nil => rfl
  | cons s ss =>
    rw [matchGoal]
    split
    · have hclash : s.matchGoal k.startMatching (.keyword (.named word)) = .ok .clash := by
        cases s with
        | keyword a =>
          have hne : a ≠ .named word := fun ha => h (by rw [ha]; rfl)
          simp [Term.matchGoal, hne]
        | const c => rfl
        | var l => rfl
        | hole => rfl
      rw [heading, matchTerms, hclash]
      rfl
    · rfl

/-- Distinct variables that are matched with themselves are bound to themselves. -/
theorem matchTerms_self {names : List String} (hnames : names.Nodup) {k : Env}
    (hdeclared : ∀ n ∈ names, k.declares (.named n) = true)
    (hunbound : ∀ n ∈ names, k.referent? (.named n) = none) :
    matchTerms (names.map fun n => .var (.named n)) (names.map fun n => .var (.named n)) k =
      .ok (some ((names.map .named).foldl (fun k v => k.setLocal v (.var v)) k)) := by
  induction names generalizing k with
  | nil => rfl
  | cons n ns ih =>
    obtain ⟨hn, hns⟩ := List.nodup_cons.mp hnames
    have hassign : k.assign (.named n) (.var (.named n)) =
        .ok (.learned (k.setLocal (.named n) (.var (.named n)))) := by
      simp [Env.assign, Env.assignReferent, hunbound n List.mem_cons_self,
        hdeclared n List.mem_cons_self]
    have hrest : ∀ m ∈ ns,
        (k.setLocal (.named n) (.var (.named n))).referent? (.named m) = none := by
      intro m hm
      have hne : Variable.named m ≠ .named n := fun h => hn (by cases h; exact hm)
      rw [Env.referent?, Env.setLocal, VarMap.get?_insert_of_ne _ _ hne]
      exact hunbound m (List.mem_cons_of_mem n hm)
    simp only [List.map_cons, matchTerms, Term.matchGoal_var, hassign, Outcome.after,
      List.foldl_cons]
    exact ih hns (fun m hm => hdeclared m (List.mem_cons_of_mem n hm)) hrest

end Pattern

/-- The head of the rule matches itself, and each variable gets bound to itself. -/
theorem Rule.matchGoal_wrapping {word : String} {names : List String} (hnames : names.Nodup)
    (body : Goal) {k : Env} (hdeclared : ∀ n ∈ names, k.declares (.named n) = true) :
    (Rule.wrapping word names body).matchGoal (Pattern.heading word names) k =
      .ok (some ⟨.wrapping word names body, k.framed (names.map .named)⟩) := by
  have hword : (Term.keyword (.named word)).matchGoal k.startMatching (.keyword (.named word)) =
      .ok .known := by
    simp [Term.matchGoal]
  have hterms := Pattern.matchTerms_self hnames (k := k.startMatching) hdeclared fun n _ => rfl
  simp only [Rule.matchGoal, Rule.wrapping, Pattern.matchGoal, Pattern.heading, if_true,
    Pattern.matchTerms, hword, Outcome.after, hterms, Env.framed]

/-! ## The two searches -/

/-- The second environment hands back what the first tells of the variables of `k`: the same
constants, and which of the variables without a constant stand for the same. What stands for
the same in the second does so in the first. -/
structure Env.HandsBack (k direct wrapped : Env) : Prop where
  valueOf_eq : ∀ v, k.declares v = true → wrapped.valueOf v = direct.valueOf v
  joined_of_wrapped : ∀ v w, k.declares v = true → k.declares w = true →
    wrapped.Joined v w → direct.Joined v w
  joined_of_direct : ∀ v w, k.declares v = true → k.declares w = true →
    direct.valueOf v = .ok none → direct.Joined v w → wrapped.Joined v w

section

variable {program : Program} {word : String} {names : List String} {body : Goal} {k : Env}

/-- A solution that is handed back to the query tells the same of its variables. -/
theorem Env.handsBack_restore {inner k' : Env} (hinner : Grounded inner.statuses)
    (hdeclared : ∀ v, k.declares v = true → inner.declares v = true)
    (h : inner.restore k = .ok k') : k.HandsBack inner k' where
  valueOf_eq _ hv := valueOf_restore hinner hdeclared h hv
  joined_of_wrapped _ _ hv hw := joined_of_restore hinner hdeclared h hv hw
  joined_of_direct _ _ hv hw := joined_restore hinner hdeclared h hv hw

/-- The only match of the head is that of the wrapping rule. -/
theorem Program.select_wrapping
    (hword : ∀ r ∈ program, r.condition.head? ≠ some (.keyword (.named word)))
    (hnames : names.Nodup) (hdeclared : ∀ n ∈ names, k.declares (.named n) = true) :
    (program ++ [Rule.wrapping word names body]).select (Pattern.heading word names) k =
      [.ok ⟨.wrapping word names body, k.framed (names.map .named)⟩] := by
  rw [select_append_of_none _ fun r hr =>
    Pattern.matchGoal_heading_of_head?_ne (hword r hr) names k]
  simp only [select, Rule.matchGoal_wrapping hnames body hdeclared]

/-- A goal is solved in step with the rule that wraps it, which takes one more rule in depth. -/
theorem Goal.inStep_wrapping
    (hword : ∀ r ∈ program, r.condition.head? ≠ some (.keyword (.named word)))
    (hnames : names.Nodup) (hprogram : program.HostFree) (hbody : body.HostFree)
    (hvars : body.Each (Term.Vars (· ∈ names.map .named))) (hk : k.WellFormed)
    (hquery : k.scope = .query) (hdeclared : ∀ n ∈ names, k.declares (.named n) = true)
    (depth : Nat) :
    InStep (Concur k.HandsBack)
      (body.explore (Selector.applications
        (Program.select (program ++ [Rule.wrapping word names body])) depth) depth k)
      (Selector.applications (Program.select (program ++ [Rule.wrapping word names body]))
        (depth + 1) (Pattern.heading word names) k) := by
  have hfree : Program.HostFree (program ++ [Rule.wrapping word names body]) := by
    intro r hr
    rcases List.mem_append.mp hr with hr | hr
    · exact hprogram r hr
    · rw [List.mem_singleton.mp hr]
      exact hbody
  have hframe : k.Mirrors (names.map .named) (k.framed (names.map .named)) := by
    refine Env.mirrors_framed hquery fun v hv => ?_
    obtain ⟨n, hn, rfl⟩ := List.mem_map.mp hv
    exact hdeclared n hn
  have hstep := (hframe.inStep_explore hk hfree depth depth hbody hvars).with_emits
  rw [Selector.applications, Program.select_wrapping hword hnames hdeclared]
  simp only [ofList, Search.bind, append_done, Match.solutions, Rule.wrapping,
    Goal.start_eq_explore hbody]
  refine hstep.map_right ?_
  rintro i j ⟨hij, hi, _⟩
  cases hij with
  | error f => exact .error f
  | @ok direct framed hsame =>
    obtain ⟨hmirrors, hwf⟩ := hsame
    obtain ⟨_, hcontinues⟩ := Program.continues_of_emits hfree hbody hk hi
    have hkept : ∀ v, k.declares v = true → direct.declares v = true :=
      fun v => hcontinues.declared
    obtain ⟨wrapped, hrestore⟩ := Env.restore_eq_ok hwf.grounded hkept
    show Concur _ _ (framed.restore k)
    rw [hmirrors.toKnowsAs.restore_eq, hrestore]
    exact .ok (Env.handsBack_restore hwf.grounded hkept hrestore)

/-- Applying the rule that wraps a goal brings, item by item, the same faults as the goal itself
and solutions that tell the same, however the two are pulled. -/
theorem Goal.solve_wrapping
    (hword : ∀ r ∈ program, r.condition.head? ≠ some (.keyword (.named word)))
    (hnames : names.Nodup) (hprogram : program.HostFree) (hbody : body.HostFree)
    (hvars : body.Each (Term.Vars (· ∈ names.map .named))) (hk : k.WellFormed)
    (hquery : k.scope = .query) (hdeclared : ∀ n ∈ names, k.declares (.named n) = true)
    (depth limit : Nat) (choice : Nat → Bool) :
    Pulled.Alike (Concur k.HandsBack)
      (body.solve (Program.select (program ++ [Rule.wrapping word names body])) depth limit
        choice k)
      ((Goal.apply (Pattern.heading word names)).solve
        (Program.select (program ++ [Rule.wrapping word names body])) (depth + 1) limit
        choice k) := by
  rw [Goal.solve_eq_take hbody, Goal.solve_eq_take (p := .apply _) trivial]
  exact InStep.take (Goal.inStep_wrapping hword hnames hprogram hbody hvars hk hquery hdeclared
    depth) choice limit

end

namespace Sample

/-- Everything is the same as itself, two things are a pair if both are the same as a third,
and tom is tom. -/
def pairing : Program := [
  .fact [.keyword (.named "same"), .var (.named "z"), .var (.named "z")],
  ⟨[.keyword (.named "pair"), .var (.named "a"), .var (.named "b")],
    .and (.call [.term (.keyword (.named "same")), written "a", written "c"])
      (.call [.term (.keyword (.named "same")), written "b", written "c"])⟩,
  .fact [.keyword (.named "tom"), .const (.atom "tom")]]

/-- The two variables are a pair. -/
def paired : Goal := .apply [.keyword (.named "pair"), .var (.named "x"), .var (.named "y")]

/-- The two variables are a pair, and the first one is tom. -/
def pairedTom : Goal := .and paired (.apply [.keyword (.named "tom"), .var (.named "x")])

/-- The query for the two variables. -/
def twoUnknowns : Env := .declaring (["x", "y"].map .named)

/-- Both variables are linked to a third one, which is tom. -/
def linkedToTom : Env := { twoUnknowns with
  statuses := ((VarMap.constant (["x", "y"].map .named) (.linked (.renamed "c" 0))).insert
    (.renamed "c" 0) (.resolved (.atom "tom")))
  next := 1 }

/-- Each of the two variables is tom by itself. -/
def eachTom : Env := { twoUnknowns with
  statuses := VarMap.constant (["x", "y"].map .named) (.resolved (.atom "tom"))
  next := 1 }

/-- No rule of the program is about the wrapping word. -/
theorem pairing_head?_ne : ∀ r ∈ pairing, r.condition.head? ≠ some (.keyword (.named "wrap")) := by
  simp [pairing, Rule.fact]

/-- The program asks no host. -/
theorem hostFree_pairing : pairing.HostFree := by
  simp [pairing, Program.HostFree, Program.Hosts, Goal.Hosts, Rule.fact]

/-- A pair is found by the rule that wraps the goal as it is found directly. -/
theorem wrapped_paired : Pulled.Alike (Concur twoUnknowns.HandsBack)
    (paired.solve (Program.select (pairing ++ [.wrapping "wrap" ["x", "y"] paired])) 2 5
      alternate twoUnknowns)
    ((Goal.apply (Pattern.heading "wrap" ["x", "y"])).solve
      (Program.select (pairing ++ [.wrapping "wrap" ["x", "y"] paired])) 3 5
      alternate twoUnknowns) ∧
    (paired.solve (Program.select (pairing ++ [.wrapping "wrap" ["x", "y"] paired])) 2 5
      alternate twoUnknowns).items.length = 1 := by
  refine ⟨Goal.solve_wrapping pairing_head?_ne (by decide) hostFree_pairing
    (show paired.HostFree from trivial) ?_ (Env.wellFormed_declaring ["x", "y"]) rfl (by decide)
    2 5 alternate, by decide +kernel⟩
  simp [paired, Goal.Each, Pattern.Each, Term.Vars]

/-- In the direct solution the two variables are linked to a third, which is tom. Once the rule
is left the third variable is gone and each of the two is tom by itself. -/
theorem wrapped_pairedTom_unjoined :
    (∀ r ∈ pairing, r.condition.head? ≠ some (.keyword (.named "wrap"))) ∧ pairing.HostFree ∧
    pairedTom.HostFree ∧ pairedTom.Each (Term.Vars (· ∈ ["x", "y"].map .named)) ∧
    twoUnknowns.WellFormed ∧ twoUnknowns.scope = .query ∧
    ¬ Pulled.Alike (Concur twoUnknowns.TellsAs)
      (pairedTom.solve (Program.select (pairing ++ [.wrapping "wrap" ["x", "y"] pairedTom])) 2 5
        alternate twoUnknowns)
      ((Goal.apply (Pattern.heading "wrap" ["x", "y"])).solve
        (Program.select (pairing ++ [.wrapping "wrap" ["x", "y"] pairedTom])) 3 5
        alternate twoUnknowns) := by
  refine ⟨pairing_head?_ne, hostFree_pairing, ⟨trivial, trivial⟩, ?_,
    Env.wellFormed_declaring ["x", "y"], rfl, fun h => ?_⟩
  · simp [pairedTom, paired, Goal.Each, Pattern.Each, Term.Vars]
  · have hdirect : (pairedTom.solve
        (Program.select (pairing ++ [.wrapping "wrap" ["x", "y"] pairedTom])) 2 5 alternate
        twoUnknowns).items = [.ok linkedToTom] := by decide +kernel
    have hwrapped : ((Goal.apply (Pattern.heading "wrap" ["x", "y"])).solve
        (Program.select (pairing ++ [.wrapping "wrap" ["x", "y"] pairedTom])) 3 5 alternate
        twoUnknowns).items = [.ok eachTom] := by decide +kernel
    have hitems := h.items
    rw [hdirect, hwrapped] at hitems
    obtain ⟨⟨htells⟩, _⟩ := List.forall₂_cons.mp hitems
    have hunjoined : ¬ eachTom.Joined (.named "x") (.named "y") := by decide
    exact hunjoined ((htells.joined_iff _ _ rfl rfl).mp (by decide))

end Sample

end Deduction
