import Deduction.Proofs.Addition
import Deduction.Proofs.Solution
import Deduction.Sample.Family

/-!
# Solutions only add knowledge

What an environment knows is never taken back by a search. A resolved or linked variable
keeps its entry in every solution, whatever the goal, the rules and the depth, so a known
constant stays known and variables that stand for the same go on to do so. Every application
of a rule rebuilds the environment on its return, and every host goal may answer with a new
one. What carries over is that solutions continue the environment they were found in.
-/

namespace Deduction

/-- A host goal that only adds is modest. -/
theorem Host.OnlyAdds.isModest {h : Host} (hadds : h.OnlyAdds) : h.IsModest :=
  fun k n t k' ht ho => (hadds k n t k' ht ho).evolves

namespace Env

variable {k k' : Env} {v w : Variable} {r r' : Root}

/-- In an extension a chain goes on from where it ended. -/
theorem Ends.prolong (h : Ends k.statuses v r) (hk : k.Extends k')
    (hr' : Ends k'.statuses r.last r') : Ends k'.statuses v r' := by
  induction h with
  | unresolved => exact hr'
  | resolved => exact hr'
  | linked hv _ ih => exact .linked (hk.kept hv (by simp)) (ih hr')

/-- A constant that is known stays known. -/
theorem Extends.valueOf_eq (hk : k.Extends k') {c : Constant} (h : k.valueOf v = .ok (some c)) :
    k'.valueOf v = .ok (some c) := by
  obtain ⟨r, hr, hvalue⟩ := exists_ends_of_valueOf h
  have hlast := hk.kept (hr.get?_last_resolved hvalue) (by simp)
  exact (hr.prolong hk (.resolved hlast)).valueOf_eq

/-- Variables that stand for the same go on to stand for the same. -/
theorem Extends.joined (hk : k.Extends k') (hk' : Grounded k'.statuses) (h : k.Joined v w) :
    k'.Joined v w := by
  obtain ⟨r, r', hv, hw, hlast⟩ := h
  have hendsv := root_eq_ok_iff.mp hv
  have hendsw := root_eq_ok_iff.mp hw
  have hdeclared : k'.declares r.last = true := hk.declared hendsv.ends_last.contains
  obtain ⟨r₁, hr₁⟩ := hk' r.last hdeclared
  have hv' := hendsv.prolong hk hr₁
  have hw' := hendsw.prolong hk (hlast ▸ hr₁)
  exact (hv'.joined_iff hw').mpr rfl

end Env

/-- A solution declares all variables that were declared, keeps the entry of every variable
that was resolved or linked and the binding of every variable of the rule, is in the same
scope and issues higher numbers. So it knows every constant that was known, and variables
that stood for the same still do. -/
theorem Goal.mem_solve_keeps {program : Program} {goal : Goal} {k k' : Env} {depth limit : Nat}
    {choice : Nat → Bool} (hprogram : program.Hosts Host.OnlyAdds)
    (hgoal : goal.Hosts Host.OnlyAdds) (hk : k.WellFormed)
    (h : .ok k' ∈ (goal.solve program.select depth limit choice k).items) :
    (∀ v, k.declares v = true → k'.declares v = true) ∧
    (∀ v s, k.statuses.get? v = some s → s ≠ .unresolved → k'.statuses.get? v = some s) ∧
    (∀ v c, k.valueOf v = .ok (some c) → k'.valueOf v = .ok (some c)) ∧
    (∀ v w, k.Joined v w → k'.Joined v w) ∧
    (∀ l r, k.referent? l = some r → k'.referent? l = some r) ∧
    k'.scope = k.scope ∧ k.next ≤ k'.next := by
  have hsolves : program.Solves goal k k' := Program.answers_of_mem_solve h
  have hmodest : program.Hosts Host.IsModest :=
    fun r hr => (hprogram r hr).mono fun _ => Host.OnlyAdds.isModest
  obtain ⟨hk', hcontinues⟩ := hsolves.continues hmodest
    (hgoal.mono fun _ => Host.OnlyAdds.isModest) hk
  exact ⟨fun v => hcontinues.declared, fun v s => hcontinues.kept,
    fun v c => hcontinues.valueOf_eq, fun v w => hcontinues.joined hk'.grounded,
    fun l r => hcontinues.bindings, hcontinues.scope, hcontinues.next_le⟩

namespace Sample

/-- Whatever is marked is assigned an atom by a host goal, through the rule's own variable. -/
def marking : Program := [
  .fact [.keyword (.named "same"), .var (.named "u"), .var (.named "u")],
  ⟨[.keyword (.named "mark"), .var (.named "u")],
    .and (.call [.term (.keyword (.named "same")), written "u", written "v"])
      (.host (.script "mark" 0 (.action (.assign (.named "v") (.const (.atom "red"))))))⟩]

/-- A query that knows one constant and that two of its variables stand for the same. -/
def halfKnown : Env where
  statuses := ((VarMap.empty.insert (.named "a") (.linked (.named "b"))).insert
    (.named "b") .unresolved).insert (.named "c") (.resolved (.atom "blue"))
  locals := VarMap.empty
  scope := .query
  next := 0

/-- The same after one of the two variables was marked: the mark is handed on to the other. -/
def marked : Env := { halfKnown with
  statuses := halfKnown.statuses.insert (.named "b") (.resolved (.atom "red")), next := 1 }

/-- The query with a link and a constant is well formed. -/
theorem wellFormed_halfKnown : halfKnown.WellFormed := by decide

/-- The link and the constant are there as before, although the rule issued a variable and
the host goal answered with an environment of its own. -/
theorem marked_keeps :
    .ok marked ∈ ((Goal.apply [.keyword (.named "mark"), .var (.named "a")]).solve marking.select
      2 5 Search.alternate halfKnown).items ∧
    (halfKnown.Joined (.named "a") (.named "b") ∧ marked.Joined (.named "a") (.named "b")) ∧
    marked.statuses.get? (.named "a") = some (.linked (.named "b")) ∧
    marked.valueOf (.named "c") = .ok (some (.atom "blue")) := by
  have hmem : .ok marked ∈ ((Goal.apply [.keyword (.named "mark"), .var (.named "a")]).solve
      marking.select 2 5 Search.alternate halfKnown).items := by decide +kernel
  have hprogram : marking.Hosts Host.OnlyAdds := by
    intro r hr
    rcases List.mem_cons.mp hr with rfl | hr
    · trivial
    · rw [List.mem_singleton.mp hr]
      exact ⟨trivial, Host.onlyAdds_script _ _ _⟩
  have hgoal : (Goal.apply [.keyword (.named "mark"), .var (.named "a")]).Hosts Host.OnlyAdds :=
    trivial
  obtain ⟨_, hkept, hvalue, hjoined, _⟩ :=
    Goal.mem_solve_keeps hprogram hgoal wellFormed_halfKnown hmem
  have hbefore : halfKnown.Joined (.named "a") (.named "b") := by decide
  exact ⟨hmem, ⟨hbefore, hjoined _ _ hbefore⟩, hkept _ _ rfl (by simp), hvalue _ _ rfl⟩

end Sample

end Deduction
