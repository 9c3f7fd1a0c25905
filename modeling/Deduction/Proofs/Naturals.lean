import Deduction.Proofs.Evaluation

/-!
# The natural numbers

The rule for successors asks for a natural number itself before it counts on. So every number comes
from a copy of the same endless search, one rule deeper, and by induction the search brings the
numbers in their order: the first from the fact, and each further one from the number that the inner
search brings before it. What an application declares for itself, the smaller number and the
temporary for its successor, is left behind at its end, and only the number is kept.
-/

namespace Deduction

open Search

/-- The environment after the number was found for the variable, with all that was issued on the
way. -/
def Env.counted (k : Env) (v : Variable) (i : Nat) : Env :=
  { k.setInt v (Int64.ofNat i) with next := k.next + 2 * i }

/-- A counted environment is well formed. -/
theorem Env.WellFormed.counted {k : Env} (hk : k.WellFormed) {v : Variable}
    (hv : k.statuses.get? v = some .unresolved) (i : Nat) : (k.counted v i).WellFormed where
  grounded := hk.grounded.insert_resolved hv
  referents hl := (declares_setStatus hv).trans (hk.referents hl)
  numbered := by
    intro u j hu hj
    have hlt := hk.numbered ((declares_setStatus hv).symm.trans hu) hj
    exact Nat.lt_of_lt_of_le hlt (Nat.le_add_right _ _)

/-- Up to a number in range all natural numbers are in range. -/
theorem InRange.of_le {i bound : Nat} (h : InRange bound) (hle : i ≤ bound) : InRange i := by
  have hmin : Int64.minValue.toInt ≤ 0 := by decide
  obtain ⟨_, hmax⟩ := h
  exact ⟨by omega, by omega⟩

namespace Sample

variable {object : Nat} {k : Env} {v : Variable} {applied : Pattern → Env → Search Item}

/-- The pattern that says that a term is a natural number. -/
def natPattern (t : Term) : Pattern := [.keyword (.named "nat"), t]

/-- Asks for a natural number that is smaller by one. -/
def smaller : Goal := .call [.term (.keyword (.named "nat")), written "m"]

/-- Asks for the successor of the smaller number. -/
def larger : Goal := sameGoal (written "n") (.phrase [atom "succ", written "m"])

/-- The rule for successors. -/
def natRule : Rule := ⟨natPattern (.var (.named "n")), .and smaller larger⟩

/-- The program of the natural numbers reckons. -/
theorem reckons_naturals (object : Nat) : Reckons object (naturals object) :=
  ⟨[.fact (natPattern (Term.int 0)), natRule], rfl, by simp [Rule.fact, natRule, natPattern]⟩

/-- The scope of the rule for successors, applied to a variable. -/
def succScope (k : Env) (v : Variable) : Env := k.startMatching.setLocal (.named "n") (.var v)

/-- The scope in which the smaller number is looked for, by a variable of its own. -/
def smallerScope (k : Env) (v : Variable) : Env := ((succScope k v).declareLocal (.named "m")).2

/-- The variable for the smaller number. -/
def smallerVar (k : Env) : Variable := .renamed "m" k.next

/-- For an unresolved variable both rules are selected, the fact about zero first. -/
theorem select_naturals (hv : k.statuses.get? v = some .unresolved) :
    (naturals object).select (natPattern (.var v)) k =
      [.ok ⟨.fact (natPattern (Term.int 0)), k.startMatching.setInt v 0⟩,
        .ok ⟨natRule, succScope k v⟩] := by
  have hdeclared : k.startMatching.declares v = true := Env.declares_iff.mpr ⟨_, hv⟩
  have hends : Env.Ends k.startMatching.statuses v ⟨v, none⟩ := .unresolved hv
  have hfact : Pattern.matchGoal (natPattern (Term.int 0)) (natPattern (.var v)) k =
      .ok (some (k.startMatching.setInt v 0)) := by
    rw [Pattern.matchGoal_of_length_eq (by rfl), natPattern, natPattern,
      Pattern.matchTerms_keyword]
    simp only [Pattern.matchTerms, Term.int, Term.matchGoal, hends.resolve_of_unknown,
      Outcome.after]
    rfl
  have hrule : Pattern.matchGoal (natPattern (.var (.named "n"))) (natPattern (.var v)) k =
      .ok (some (succScope k v)) := by
    have hassign : k.startMatching.assign (.named "n") (.var v) =
        .ok (.learned (succScope k v)) :=
      Env.assign_of_unbound (r := .var v) (U := fun _ => True) rfl hdeclared
    rw [Pattern.matchGoal_of_length_eq (by rfl), natPattern, natPattern,
      Pattern.matchTerms_keyword]
    simp only [Pattern.matchTerms, Term.matchGoal_var, hassign, Outcome.after]
  rw [Program.select_eq_filter]
  change Program.select [.fact (natPattern (Term.int 0)), natRule] _ k = _
  simp only [Program.select, Rule.matchGoal, Rule.fact, natRule, hfact, hrule]

/-! ## The smaller number -/

/-- In the scope of the rule its first variable is bound, and the one for the smaller number is not.
-/
theorem referent?_succScope (k : Env) (v : Variable) :
    (succScope k v).referent? (.named "n") = some (.var v) ∧
    (succScope k v).referent? (.named "m") = none := by
  rw [succScope, Env.referent?_setLocal, Env.referent?_setLocal]
  exact ⟨rfl, rfl⟩

/-- The rule's own variable for the smaller number is declared under the next number. -/
theorem declareLocal_succScope (k : Env) (v : Variable) :
    (succScope k v).declareLocal (.named "m") = (.var (smallerVar k), smallerScope k v) := by
  rw [smallerScope, Env.declareLocal_of_unbound (referent?_succScope k v).2]
  rfl

/-- The new variable is unresolved, and the rule's variable for the smaller number is bound to it.
-/
theorem smallerScope_eq (k : Env) (v : Variable) : smallerScope k v =
    { succScope k v with
      statuses := k.statuses.insert (smallerVar k) .unresolved
      locals := (succScope k v).locals.insert (.named "m") (.var (smallerVar k))
      next := k.next + 1 } := by
  rw [smallerScope, Env.declareLocal_of_unbound (referent?_succScope k v).2]
  rfl

/-- Both variables of the rule are bound when the smaller number is looked for. -/
theorem referent?_smallerScope (k : Env) (v : Variable) :
    (smallerScope k v).referent? (.named "n") = some (.var v) ∧
    (smallerScope k v).referent? (.named "m") = some (.var (smallerVar k)) := by
  rw [smallerScope_eq, Env.referent?, Env.referent?, VarMap.get?_insert, VarMap.get?_insert]
  exact ⟨VarMap.get?_insert_self _ _ _, rfl⟩

/-- Asking for the smaller number is asking for a natural number, by the new variable. -/
theorem explore_smaller (applied : Pattern → Env → Search Item) (turns : Nat) (k : Env)
    (v : Variable) : smaller.explore applied turns (succScope k v) =
      applied (natPattern (.var (smallerVar k))) (smallerScope k v) := by
  have hflatten : Expr.flattenPhrase [.term (.keyword (.named "nat")), written "m"]
      (succScope k v) = .ok ⟨natPattern (.var (smallerVar k)), .empty, smallerScope k v⟩ := by
    have hscope : (succScope k v).scope = .rule := rfl
    have hexpand : (succScope k v).expandVariable (.named "m") =
        .ok (.var (smallerVar k), smallerScope k v) := by
      rw [Env.expandVariable, hscope]
      simp [Variable.IsIssued, Variable.id?, declareLocal_succScope]
    simp only [Expr.flattenPhrase, Expr.flattenAll, Expr.flatten, written, hexpand]
    rfl
  rw [smaller, Goal.explore_call _ _ hflatten, Goal.explore_flatPhrase, Prelude.explore, one_under]

/-! ## The larger number -/

/-- A bound variable of a rule is flattened to what it is bound to. -/
theorem flatten_written {r : Referent} {name : String} (hscope : k.scope = .rule)
    (hl : k.referent? (.named name) = some r) :
    (written name).flatten k = .ok ⟨r.toTerm, .empty, k⟩ := by
  have hexpand : k.expandVariable (.named name) = .ok (r, k) := by
    rw [Env.expandVariable, hscope]
    simp [hl, Env.declareLocal_of_bound hl]
  simp only [written, Expr.flatten, hexpand]

/-- What is known when the successor of the smaller number is asked for. -/
structure Counting (k : Env) (v w : Variable) (n : Int64) : Prop where
  scope : k.scope = .rule
  bound : k.referent? (.named "n") = some (.var v)
  bound' : k.referent? (.named "m") = some (.var w)
  unresolved : k.statuses.get? v = some .unresolved
  resolved : k.statuses.get? w = some (.resolved (.value (.int n)))
  wellFormed : k.WellFormed

/-- The temporary for the successor. -/
def succVar (k : Env) : Variable := .temporary Expr.phraseStem k.next

/-- The environment in which the successor has been computed. -/
def succKnown (k : Env) (n : Int64) : Env := (k.issuing 1).setInt (succVar k) (n + 1)

namespace Counting

variable {w : Variable} {n : Int64}

/-- The temporary of the successor is not the larger number. -/
theorem ne_succVar (h : Counting k v w n) : v ≠ succVar k := by
  rintro rfl
  have hnone := Env.Numbered.get?_next h.wellFormed.numbered (v := succVar k) rfl
  rw [h.unresolved] at hnone
  cases hnone

/-- The larger number is still unknown when its value has been computed. -/
theorem ends_larger (h : Counting k v w n) : Env.Ends (succKnown k n).statuses v ⟨v, none⟩ :=
  .unresolved ((VarMap.get?_insert_of_ne _ _ h.ne_succVar).trans
    (Env.get?_issuing h.wellFormed.numbered h.unresolved 1))

/-- The temporary of the successor knows its value. -/
theorem ends_succVar (k : Env) (n : Int64) : Env.Ends (succKnown k n).statuses (succVar k)
    ⟨succVar k, some (.value (.int (n + 1)))⟩ :=
  .resolved (VarMap.get?_insert_self _ _ _)

/-- The successor is computed, and the larger number gets linked to it. -/
theorem explore_eq (h : Counting k v w n) {program : Program}
    (hprogram : Reckons object program) (depth turns : Nat) :
    larger.explore (Selector.applications program.select (depth + 3))
      turns k = one (.ok ((succKnown k n).setStatus v (.linked (succVar k)))) := by
  have hpending : (k.issuing 1).statuses.get? (succVar k) = some .unresolved :=
    VarMap.get?_insert_self _ _ _
  have hsmaller : Env.Ends (k.issuing 1).statuses w ⟨w, some (.value (.int n))⟩ :=
    .resolved (Env.get?_issuing h.wellFormed.numbered h.resolved 1)
  have hsucc := applications_succ hprogram hpending (r := .var w)
    hsmaller.valueOf_eq depth
  have hsame := applications_same_linked hprogram h.ends_larger (ends_succVar k n) (depth + 2)
  rw [larger, explore_sameGoal (flatten_written h.scope h.bound)
    (Expr.flatten_unary (flatten_written h.scope h.bound') "succ")]
  -- the prelude is the definition of the one temporary
  change Search.under (Selector.applications _ _ ((succVar k).definedBy _) _) _ = _
  rw [hsucc, one_under]
  exact hsame

/-- The environment stays well formed when the larger number is linked to the successor. -/
theorem wellFormed_linked (h : Counting k v w n) :
    ((succKnown k n).setStatus v (.linked (succVar k))).WellFormed := by
  have hissued : Env.Update (fun _ => True) k (k.issuing 1) := .issued
  have hresolved : Env.Update (fun _ => True) (k.issuing 1) (succKnown k n) :=
    .resolved (VarMap.get?_insert_self _ _ _) trivial
  have hv : (succKnown k n).statuses.get? v = some .unresolved :=
    h.ends_larger.get?_last_unresolved rfl
  have hlinked : Env.Update (fun _ => True) (succKnown k n)
      ((succKnown k n).setStatus v (.linked (succVar k))) :=
    .linked (r := ⟨succVar k, _⟩) hv (ends_succVar k n) h.ne_succVar
  exact hlinked.wellFormed (hresolved.wellFormed (hissued.wellFormed h.wellFormed))

end Counting

/-- The variable for the smaller number was not declared before. -/
theorem get?_smallerVar (hk : k.WellFormed) : k.statuses.get? (smallerVar k) = none :=
  Env.Numbered.get?_next hk.numbered rfl

/-- Declared variables are different from the one for the smaller number. -/
theorem ne_smallerVar (hk : k.WellFormed) {u : Variable} (hu : k.declares u = true) :
    u ≠ smallerVar k := by
  rintro rfl
  rw [Env.declares, VarMap.contains, get?_smallerVar hk] at hu
  cases hu

/-- The smaller number is looked for in a well-formed environment. -/
theorem wellFormed_smallerScope (hk : k.WellFormed) (hv : k.declares v = true) :
    (smallerScope k v).WellFormed := by
  have hbound : Env.Update (fun _ => True) k.startMatching (succScope k v) := .bound rfl hv
  have hrenamed : Env.Update (fun _ => True) (succScope k v) (smallerScope k v) :=
    .renamed (referent?_succScope k v).2
  exact hrenamed.wellFormed (hbound.wellFormed hk.startMatching)

/-- The variable for the smaller number is unresolved at first. -/
theorem get?_smallerScope_smallerVar (k : Env) (v : Variable) :
    (smallerScope k v).statuses.get? (smallerVar k) = some .unresolved := by
  rw [smallerScope_eq]
  exact VarMap.get?_insert_self _ _ _

/-- What the search for the smaller number brings. -/
def innerCounted (k : Env) (v : Variable) (i : Nat) : Env :=
  (smallerScope k v).counted (smallerVar k) i

/-- What is known at the end of the rule's body. -/
def innerLinked (k : Env) (v : Variable) (i : Nat) : Env :=
  (succKnown (innerCounted k v i) (Int64.ofNat i)).setStatus v
    (.linked (succVar (innerCounted k v i)))

/-- The search for the smaller number uses up its numbers after that of its own variable. -/
theorem next_innerCounted (k : Env) (v : Variable) (i : Nat) :
    (innerCounted k v i).next = k.next + 1 + 2 * i := by
  rw [innerCounted, Env.counted, smallerScope_eq]

/-- Every solution for the smaller number is one to count on from. -/
theorem counting_innerCounted (hk : k.WellFormed) (hv : k.statuses.get? v = some .unresolved)
    (i : Nat) : Counting (innerCounted k v i) v (smallerVar k) (Int64.ofNat i) := by
  have hdeclared : k.declares v = true := Env.declares_iff.mpr ⟨_, hv⟩
  have hne := ne_smallerVar hk hdeclared
  obtain ⟨hbound, hbound'⟩ := referent?_smallerScope k v
  refine ⟨by rw [innerCounted, smallerScope_eq]; rfl, hbound, hbound', ?_,
    VarMap.get?_insert_self _ _ _, ?_⟩
  · rw [innerCounted, smallerScope_eq]
    exact (VarMap.get?_insert_of_ne _ _ hne).trans ((VarMap.get?_insert_of_ne _ _ hne).trans hv)
  · exact (wellFormed_smallerScope hk hdeclared).counted (get?_smallerScope_smallerVar k v) i

/-- The temporary is none of the outer variables. -/
theorem declares_succVar (hk : k.WellFormed) (v : Variable) (i : Nat) :
    k.declares (succVar (innerCounted k v i)) = false := by
  rw [Bool.eq_false_iff]
  intro h
  have hlt : (innerCounted k v i).next < k.next := hk.numbered h rfl
  rw [next_innerCounted] at hlt
  omega

/-- Of the other outer variables nothing has been learned. -/
theorem get?_innerLinked (hk : k.WellFormed) (i : Nat) {u : Variable} (huv : u ≠ v)
    (hu : k.declares u = true) :
    (innerLinked k v i).statuses.get? u = k.statuses.get? u := by
  have hne := ne_smallerVar hk hu
  have hne' : u ≠ succVar (innerCounted k v i) := by
    rintro rfl
    rw [declares_succVar hk] at hu
    cases hu
  rw [innerLinked, Env.setStatus_statuses, VarMap.get?_insert_of_ne _ _ huv]
  refine (VarMap.get?_insert_of_ne _ _ hne').trans ((VarMap.get?_insert_of_ne _ _ hne').trans ?_)
  rw [innerCounted, smallerScope_eq]
  exact (VarMap.get?_insert_of_ne _ _ hne).trans (VarMap.get?_insert_of_ne _ _ hne)

/-- On the return to the outer scope the smaller number and the temporary are dropped, and the
larger number is known by itself. -/
theorem restore_innerLinked (hk : k.WellFormed) (hv : k.statuses.get? v = some .unresolved)
    (i : Nat) : (innerLinked k v i).restore k = .ok (k.counted v (i + 1)) := by
  have hcounting := counting_innerCounted hk hv i
  have hdeclared : k.declares v = true := Env.declares_iff.mpr ⟨_, hv⟩
  have hsucc : Int64.ofNat i + 1 = Int64.ofNat (i + 1) := (Int64.ofNat_add i 1).symm
  have ht : Env.Ends (innerLinked k v i).statuses (succVar (innerCounted k v i))
      ⟨succVar (innerCounted k v i), some (.value (.int (Int64.ofNat (i + 1))))⟩ := by
    refine .resolved ((VarMap.get?_insert_of_ne _ _ hcounting.ne_succVar.symm).trans ?_)
    exact hsucc ▸ VarMap.get?_insert_self _ _ _
  have hstatus := Env.outerStatus_of_linked_inner (VarMap.get?_insert_self _ _ _)
    (declares_succVar hk v i) ht
  have hnext : (innerLinked k v i).next = k.next + 2 * (i + 1) := by
    change (innerCounted k v i).next + 1 = _
    rw [next_innerCounted]
    omega
  have hgrounded : Env.Grounded (innerLinked k v i).statuses :=
    hcounting.wellFormed_linked.grounded
  rw [Env.restore_eq_setStatus hgrounded hk.grounded hdeclared (fun u => get?_innerLinked hk i)
    hstatus (fun w hw => nomatch hw) (hnext ▸ Nat.le_add_right _ _), hnext]
  rfl

/-! ## One application after the other -/

/-- The fact gives the first number. -/
theorem solutions_zero (hv : k.declares v = true) (turns : Nat) :
    Match.solutions (Goal.start applied turns) k
      ⟨.fact (natPattern (Term.int 0)), k.startMatching.setInt v 0⟩ =
      one (.ok (k.counted v 0)) := by
  have hknows : k.KnowsAs k.startMatching := ⟨rfl, rfl⟩
  have hrestore : (k.startMatching.setInt v 0).restore k = .ok (k.setInt v 0) :=
    hknows.restore_setStatus hv _
  change one ((k.startMatching.setInt v 0).restore k) = _
  rw [hrestore]
  rfl

/-- Neither of the two goals of the rule writes anything down. -/
theorem start_natRule (applied : Pattern → Env → Search Item) (turns : Nat) (k : Env) :
    Goal.start applied turns natRule.body k =
      (smaller.explore applied turns k).under (larger.explore applied turns) := rfl

/-- The rule gives the successor of every number that the inner search starts with. -/
theorem exists_solutions_succ (hk : k.WellFormed) (hv : k.statuses.get? v = some .unresolved)
    {count depth : Nat} {rest : Unit → Search Item}
    (hrest : Selector.applications (naturals object).select (depth + 3)
      (natPattern (.var (smallerVar k))) (smallerScope k v) =
      append (ofList ((List.range count).map fun i => .ok (innerCounted k v i))) rest)
    (turns : Nat) :
    ∃ rest', Match.solutions
      (Goal.start (Selector.applications (naturals object).select (depth + 3)) turns) k
      ⟨natRule, succScope k v⟩ =
      append (ofList ((List.range count).map fun i => .ok (k.counted v (i + 1)))) rest' := by
  have hlarger : ∀ i, larger.explore (Selector.applications (naturals object).select (depth + 3))
      turns (innerCounted k v i) = one (.ok (innerLinked k v i)) :=
    fun i => (counting_innerCounted hk hv i).explore_eq (reckons_naturals object) depth turns
  rw [Match.solutions, start_natRule, explore_smaller, hrest, Search.under, bind_append,
    bind_ofList (h := fun i => [.ok (innerLinked k v i)]), ← List.map_eq_flatMap, map_eq_bind,
    bind_append, bind_ofList (h := fun i => [.ok (k.counted v (i + 1))]), ← List.map_eq_flatMap]
  · exact ⟨_, rfl⟩
  · exact fun i _ => congrArg one (restore_innerLinked hk hv i)
  · exact fun i _ => hlarger i

/-- By induction on their number, the search starts with so many natural numbers. -/
theorem exists_applications_nat (object count : Nat) {k : Env} {v : Variable} {depth : Nat}
    (hk : k.WellFormed) (hv : k.statuses.get? v = some .unresolved) (hdepth : count + 3 ≤ depth) :
    ∃ rest, Selector.applications (naturals object).select depth (natPattern (.var v)) k =
      append (ofList ((List.range count).map fun i => .ok (k.counted v i))) rest := by
  induction count generalizing k v depth with
  | zero => exact ⟨fun _ => _, rfl⟩
  | succ count ih =>
    have hdeclared : k.declares v = true := Env.declares_iff.mpr ⟨_, hv⟩
    obtain ⟨depth, rfl⟩ : ∃ d, depth = d + 3 + 1 := ⟨depth - 4, by omega⟩
    have hcount : count + 3 ≤ depth + 3 := by omega
    obtain ⟨rest, hrest⟩ := ih (wellFormed_smallerScope hk hdeclared)
      (get?_smallerScope_smallerVar k v) hcount
    obtain ⟨rest', hsucc⟩ := exists_solutions_succ hk hv hrest (depth + 3)
    refine ⟨rest', ?_⟩
    rw [Selector.applications, select_naturals hv]
    change append (Match.solutions _ k _) (fun _ => append (Match.solutions _ k _) _) = _
    rw [solutions_zero hdeclared, hsucc, List.range_succ_eq_map, List.map_cons, List.map_map]
    change item _ (fun _ => append (append _ rest') fun _ => done) = _
    rw [append_done]
    rfl

/-- The query for a natural number. -/
def natQuery : Env := .declaring [.named "n"]

/-- The variable of the query is known to be the number, and nothing else is left of the search. -/
structure Tells (k : Env) (i : Nat) : Prop where
  value : ∃ n : Int64, k.valueOf (.named "n") = .ok (some (.value (.int n))) ∧ n.toInt = i
  declares : ∀ v, k.declares v = true ↔ v = .named "n"
  scope : k.scope = .query
  locals : k.locals = VarMap.empty

/-- A counted environment of the query tells the number and nothing else. -/
theorem tells_counted {i : Nat} (hi : InRange i) :
    Tells (natQuery.counted (.named "n") i) i where
  value := by
    have hends : Env.Ends (natQuery.counted (.named "n") i).statuses (.named "n")
        ⟨.named "n", some (.value (.int (Int64.ofNat i)))⟩ :=
      .resolved (VarMap.get?_insert_self _ _ _)
    exact ⟨Int64.ofNat i, hends.valueOf_eq, Int64.toInt_ofNat'.trans hi.bmod_eq⟩
  declares v := by
    rw [Env.declares, Env.counted, Env.setInt, Env.setStatus, VarMap.contains_insert]
    by_cases hv : v = .named "n"
    · simp [hv]
    · simp [hv, natQuery, Env.declaring, VarMap.contains, VarMap.get?_constant]
  scope := rfl
  locals := rfl

/-- The natural numbers are found one after the other, from zero on, as long as they can be values
of payloads. Every solution declares just the variable of the query, in the scope of the query and
without bindings, however many rules were nested to find it. -/
theorem solve_naturals (object : Nat) {bound : Nat} (hbound : InRange bound) {depth : Nat}
    (hdepth : bound + 4 ≤ depth) (choice : Nat → Bool) :
    ∃ solutions : List Env,
      ((Goal.apply (natPattern (.var (.named "n")))).solve (naturals object).select depth
        (bound + 1) choice natQuery).items = solutions.map .ok ∧
      solutions.length = bound + 1 ∧
      ∀ (i : Nat) (k : Env), solutions[i]? = some k → Tells k i := by
  have hwellFormed : natQuery.WellFormed := Env.wellFormed_declaring ["n"]
  obtain ⟨rest, hrest⟩ := exists_applications_nat object (bound + 1) (v := .named "n") hwellFormed
    (by decide) hdepth
  refine ⟨(List.range (bound + 1)).map (natQuery.counted (.named "n")), ?_, by simp, ?_⟩
  · have hitems := items_take_of_append (s := fun _ => _) hrest choice
    rw [List.length_map, List.length_range] at hitems
    rw [List.map_map]
    exact hitems
  · intro i k hk
    obtain ⟨hlt, rfl⟩ : i < bound + 1 ∧ natQuery.counted (.named "n") i = k := by
      simpa [List.getElem?_range, List.getElem?_eq_some_iff] using hk
    exact tells_counted (hbound.of_le (Nat.le_of_lt_succ hlt))

/-- The first three natural numbers, searched for with seven nested rules. -/
theorem three_naturals :
    ∃ solutions : List Env,
      ((Goal.apply (natPattern (.var (.named "n")))).solve (naturals 0).select 7 3
        Search.alternate natQuery).items = solutions.map .ok ∧
      solutions.length = 3 ∧
      ∀ (i : Nat) (k : Env), solutions[i]? = some k → Tells k i :=
  have hbound : InRange (2 : Nat) := by decide
  solve_naturals 0 hbound (by decide) Search.alternate

end Sample

end Deduction
