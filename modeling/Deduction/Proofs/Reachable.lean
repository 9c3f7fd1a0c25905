import Deduction.Proofs.Addition
import Deduction.Proofs.Answer
import Deduction.Proofs.Flattening
import Deduction.Proofs.Restoring

/-!
# Reachable environments

The environments that arise from a query by any sequence of operations, returns to any
other environment and solutions of any goal included. The return to an unrelated scope
may leave bindings behind that refer to nothing, so these environments need not be well
formed. Still no chain runs in a circle or leaves the declared variables, and no number
is issued twice.
-/

namespace Deduction

open Relation

namespace Env

/-- One operation on an environment. A return to another scope may go to any environment. -/
inductive Step (k : Env) : Env → Prop
  | resolve {v : Variable} {c : Constant} {o : Outcome} {k' : Env} (h : k.resolve v c = .ok o)
      (ho : o.after k = some k') : Step k k'
  | link {v w : Variable} {o : Outcome} {k' : Env} (h : k.link v w = .ok o)
      (ho : o.after k = some k') : Step k k'
  | assign {l : Variable} {t : Term} {o : Outcome} {k' : Env} (h : k.assign l t = .ok o)
      (ho : o.after k = some k') : Step k k'
  | matchTerm {s t : Term} {o : Outcome} {k' : Env} (h : s.matchGoal k t = .ok o)
      (ho : o.after k = some k') : Step k k'
  | matchPattern {condition goal : Pattern} {k' : Env}
      (h : Pattern.matchGoal condition goal k = .ok (some k')) : Step k k'
  | startMatching : Step k k.startMatching
  | declareLocal (l : Variable) : Step k (k.declareLocal l).2
  | issueTemporary (stem : String) : Step k (k.issueTemporary stem).2
  | expandVariable {v : Variable} {r : Referent} {k' : Env}
      (h : k.expandVariable v = .ok (r, k')) : Step k k'
  | flatten {e : Expr} {x : FlatTerm} (h : e.flatten k = .ok x) : Step k x.env
  | flattenPhrase {es : List Expr} {x : FlatPhrase} (h : Expr.flattenPhrase es k = .ok x) :
      Step k x.env
  | restore {outer k' : Env} (h : k.restore outer = .ok k') : Step k k'

/-- A run of operations. -/
abbrev Steps : Env → Env → Prop := ReflTransGen Step

/-- What every operation preserves: chains end, numbers are used up, and no number is
carried by two declared variables. -/
structure Intact (k : Env) : Prop where
  grounded : Grounded k.statuses
  numbered : k.Numbered
  distinct : ∀ {v w i}, k.declares v = true → k.declares w = true → v.id? = some i →
    w.id? = some i → v = w

variable {U : Constant → Prop} {k k' : Env}

/-- The next number is carried by no other declared variable. -/
theorem Intact.distinct_insert_next (hk : k.Intact) {locals : VarMap Referent} {u : Variable}
    (hu : u.id? = some k.next) {v w : Variable} {i : Nat}
    (hv : Env.declares { k with
      statuses := k.statuses.insert u .unresolved, locals := locals, next := k.next + 1 } v = true)
    (hw : Env.declares { k with
      statuses := k.statuses.insert u .unresolved, locals := locals, next := k.next + 1 } w = true)
    (hvi : v.id? = some i) (hwi : w.id? = some i) : v = w := by
  rw [declares, VarMap.contains_insert, Bool.or_eq_true, decide_eq_true_eq] at hv hw
  have hlt : ∀ {x}, k.declares x = true → x.id? ≠ some k.next :=
    fun hx hxi => Nat.lt_irrefl _ (hk.numbered hx hxi)
  rcases hv with rfl | hv
  · rcases hw with rfl | hw
    · rfl
    · exact absurd (hwi.trans (hvi.symm.trans hu)) (hlt hw)
  · rcases hw with rfl | hw
    · exact absurd (hvi.trans (hwi.symm.trans hu)) (hlt hv)
    · exact hk.distinct hv hw hvi hwi

/-- An elementary update keeps an environment intact. -/
theorem Update.intact (h : Update U k k') (hk : k.Intact) : k'.Intact := by
  refine ⟨h.grounded hk.grounded hk.numbered, h.numbered hk.numbered, ?_⟩
  intro v w i
  cases h with
  | resolved hu _ =>
    rw [declares_setStatus hu, declares_setStatus hu]
    exact hk.distinct
  | linked hu _ _ =>
    rw [declares_setStatus hu, declares_setStatus hu]
    exact hk.distinct
  | bound => exact hk.distinct
  | issued => exact hk.distinct_insert_next rfl
  | renamed hl =>
    rw [declareLocal_of_unbound hl]
    exact hk.distinct_insert_next rfl

/-- A run of elementary updates keeps an environment intact. -/
theorem Evolves.intact (h : k.Evolves U k') (hk : k.Intact) : k'.Intact := by
  induction h with
  | refl => exact hk
  | tail _ hstep ih => exact hstep.intact ih

/-- The start of matching keeps an environment intact. -/
theorem Intact.startMatching (hk : k.Intact) : k.startMatching.Intact :=
  ⟨hk.grounded, hk.numbered, hk.distinct⟩

/-- Wherever the return goes to, it only drops variables and rewrites chains to their ends. -/
theorem Intact.restore (hk : k.Intact) {outer : Env} (h : k.restore outer = .ok k') :
    k'.Intact := by
  obtain ⟨kept, hkept, rfl⟩ := restore_eq_ok_iff.mp h
  have hsub : ∀ {v}, kept.contains v = true → k.declares v = true :=
    fun hv => contains_inner_of_retained hkept hv
  exact {
    grounded := grounded_retained hk.grounded hkept
    numbered := fun hv hi => Nat.lt_of_lt_of_le (hk.numbered (hsub hv) hi) (Nat.le_max_left _ _)
    distinct := fun hv hw => hk.distinct (hsub hv) (hsub hw) }

/-- Every single operation leaves the environment intact. -/
theorem Step.intact (h : Step k k') (hk : k.Intact) : k'.Intact := by
  have hany : ∀ t : Term, t.Over fun _ => True := fun _ _ _ => trivial
  have hall : ∀ g : Pattern, Pattern.Each (Term.Over fun _ => True) g := fun _ t _ => hany t
  cases h with
  | resolve h ho => exact (resolve_updates (U := fun _ => True) h ho trivial).evolves.intact hk
  | link h ho => exact (link_updates k.over_univ h ho).evolves.intact hk
  | assign h ho => exact (assign_updates k.over_univ (hany _) h ho).evolves.intact hk
  | matchTerm h ho =>
    exact (Term.matchGoal_updates k.over_univ (hany _) (hany _) h ho).evolves.intact hk
  | matchPattern h =>
    exact (Pattern.matchGoal_evolves k.over_univ (hall _) (hall _) h).intact hk.startMatching
  | startMatching => exact hk.startMatching
  | declareLocal l => exact (declareLocal_evolves (U := fun _ => True) k l).intact hk
  | issueTemporary stem => exact Update.intact (U := fun _ => True) .issued hk
  | expandVariable h => exact (expandVariable_evolves (U := fun _ => True) h).intact hk
  | flatten h => exact (Expr.flatten_evolves (U := fun _ => True) h).intact hk
  | flattenPhrase h => exact (Expr.flattenAll_evolves (U := fun _ => True) h).intact hk
  | restore h => exact hk.restore h

/-- A run of steps keeps an environment intact. -/
theorem Steps.intact (h : k.Steps k') (hk : k.Intact) : k'.Intact := by
  induction h with
  | refl => exact hk
  | tail _ hstep ih => exact hstep.intact ih

/-- A query that only declares its variables is intact. -/
theorem intact_declaring (names : List String) : (declaring (names.map .named)).Intact where
  grounded := grounded_constant _
  numbered := (wellFormed_declaring names).numbered
  distinct hv _ hvi := by simp [id?_of_declaring hv] at hvi

end Env

/-- A host goal that makes its answers from the environment it is given by operations alone. -/
def Host.IsTame (h : Host) : Prop :=
  ∀ k n t k', h.turn k n = some t → t.outcome = .ok (some k') → k.Steps k'

/-- An addition is a step. -/
theorem Env.Addition.step {k k' : Env} (h : k.Addition k') : k.Step k' := by
  cases h with
  | resolve h ho => exact .resolve h ho
  | link h ho => exact .link h ho
  | assign h ho => exact .assign h ho
  | matchTerm h ho => exact .matchTerm h ho
  | declareLocal l => exact .declareLocal l
  | issueTemporary stem => exact .issueTemporary stem
  | expandVariable h => exact .expandVariable h
  | flatten h => exact .flatten h
  | flattenPhrase h => exact .flattenPhrase h

/-- A host goal that only adds to its environment is tame. -/
theorem Host.OnlyAdds.isTame {h : Host} (hadds : h.OnlyAdds) : h.IsTame :=
  fun k n t k' ht ho => ReflTransGen.mono (fun _ _ => Env.Addition.step) _ _ (hadds k n t k' ht ho)

/-- A host goal that runs a script is tame. -/
theorem Host.isTame_script (name : String) (object : Nat) (s : Script) :
    (Host.script name object s).IsTame := (Host.onlyAdds_script name object s).isTame

/-! ## Solutions -/

/-- A solution is reached by operations: matches, flattenings and returns of scope. -/
theorem Program.Solves.steps {program : Program} {p : Goal} {k k' : Env}
    (h : program.Solves p k k') (hprogram : program.Hosts Host.IsTame)
    (hp : p.Hosts Host.IsTame) : k.Steps k' := by
  induction h with
  | truth => exact .refl
  | and _ _ ihp ihq => exact (ihp hp.1).trans (ihq hp.2)
  | orLeft _ ih => exact ih hp.1
  | orRight _ ih => exact ih hp.2
  | not => exact .refl
  | apply hr hm _ hrestore ih =>
    exact (ReflTransGen.single (.matchPattern hm)).trans
      ((ih (hprogram _ hr)).tail (.restore hrestore))
  | call hx _ ih =>
    exact (ReflTransGen.single (.flattenPhrase hx)).trans
      (ih ⟨Prelude.hosts_toGoal _ _, trivial⟩)
  | host ht ho => exact hp _ _ _ _ ht ho

namespace Env

/-- The environments that arise from a start by operations and by solving goals. -/
inductive Reachable (start : Env) : Env → Prop
  | start : Reachable start start
  | step {k k' : Env} (hk : Reachable start k) (h : Step k k') : Reachable start k'
  | solution {program : Program} {goal : Goal} {depth limit : Nat} {choice : Nat → Bool}
      {k k' : Env} (hk : Reachable start k) (hprogram : program.Hosts Host.IsTame)
      (hgoal : goal.Hosts Host.IsTame)
      (h : .ok k' ∈ (goal.solve program.select depth limit choice k).items) : Reachable start k'

/-- Whatever is reached from an intact environment is intact. -/
theorem Reachable.intact {start k : Env} (h : Reachable start k) (hstart : start.Intact) :
    k.Intact := by
  induction h with
  | start => exact hstart
  | step _ h ih => exact h.intact ih
  | solution _ hprogram hgoal h ih =>
    have hsolves := Program.answers_of_mem_solve h
    exact (Program.Solves.steps hsolves hprogram hgoal).intact ih

/-- The first variable is linked to the second one. -/
def Linked (k : Env) (v w : Variable) : Prop := k.statuses.get? v = some (.linked w)

/-- The end of a chain is reached by its links. -/
theorem Ends.linked_last {k : Env} {v : Variable} {r : Root} (h : Ends k.statuses v r) :
    ReflTransGen k.Linked v r.last := by
  induction h with
  | unresolved => exact .refl
  | resolved => exact .refl
  | linked hv _ ih => exact .head hv ih

/-- In every environment that arises from a query, the links of a declared variable lead in
finitely many steps to a declared variable that is unresolved or resolved, which is the
root found for it; numbers are used up; and no two issued variables share one. -/
theorem Reachable.chain_and_numbers {names : List String} {k : Env}
    (h : Reachable (declaring (names.map .named)) k) :
    (∀ v, k.declares v = true → ∃ last, ReflTransGen k.Linked v last ∧
      (k.statuses.get? last = some .unresolved ∧ k.root v = .ok ⟨last, none⟩ ∨
        ∃ c, k.statuses.get? last = some (.resolved c) ∧ k.root v = .ok ⟨last, some c⟩)) ∧
    (∀ v i, k.declares v = true → v.id? = some i → i < k.next) ∧
    ∀ v w i, k.declares v = true → k.declares w = true → v.id? = some i → w.id? = some i →
      v = w := by
  have hk := h.intact (intact_declaring names)
  refine ⟨fun v hv => ?_, fun v i => hk.numbered, fun v w i => hk.distinct⟩
  obtain ⟨⟨last, value⟩, hr⟩ := hk.grounded v hv
  refine ⟨last, hr.linked_last, ?_⟩
  cases value with
  | none => exact Or.inl ⟨hr.get?_last, hr.root_eq⟩
  | some c => exact Or.inr ⟨c, hr.get?_last, hr.root_eq⟩

end Env

namespace Sample

/-- A host goal that links two query variables and binds a variable to a new temporary. -/
def join : Host := .script "join" 0
  (.andThen (.action (.link (.named "a") (.named "b"))) (.action (.assignFresh (.named "f"))))

/-- What the host goal makes of a query for two variables. -/
def joined : Env where
  statuses := ((VarMap.empty.insert (.named "a") (.linked (.named "b"))).insert
    (.named "b") .unresolved).insert (.temporary "fresh" 0) .unresolved
  locals := VarMap.empty.insert (.named "f") (.var (.temporary "fresh" 0))
  scope := .query
  next := 1

/-- The same after a return to the scope of a rule that had declared a variable of its own. -/
def crossed : Env := { joined with
  locals := VarMap.empty.insert (.named "x") (.var (.renamed "x" 0)), scope := .rule }

/-- A binding that refers to nothing is reachable, and yet the chains are in order. -/
theorem crossed_chain_and_numbers :
    (Env.declaring (["a", "b"].map .named)).Reachable crossed ∧
    (crossed.referent? (.named "x") = some (.var (.renamed "x" 0)) ∧
      crossed.declares (.renamed "x" 0) = false) ∧
    ∃ last, ReflTransGen crossed.Linked (.named "a") last ∧
      (crossed.statuses.get? last = some .unresolved ∧
          crossed.root (.named "a") = .ok ⟨last, none⟩ ∨
        ∃ c, crossed.statuses.get? last = some (.resolved c) ∧
          crossed.root (.named "a") = .ok ⟨last, some c⟩) := by
  have hempty : Program.Hosts Host.IsTame [] := by simp [Program.Hosts]
  have htame : (Goal.host join).Hosts Host.IsTame := Host.isTame_script _ _ _
  have hsolution : .ok joined ∈ ((Goal.host join).solve (Program.select []) 1 1
      Search.alternate (.declaring (["a", "b"].map .named))).items := by decide
  have hrestore : joined.restore ((Env.declaring (["a", "b"].map .named)).startMatching.declareLocal
      (.named "x")).2 = .ok crossed := by decide
  have hcrossed : (Env.declaring (["a", "b"].map .named)).Reachable crossed :=
    .step (.solution .start hempty htame hsolution) (.restore hrestore)
  exact ⟨hcrossed, by decide, hcrossed.chain_and_numbers.1 (.named "a") (by decide)⟩

end Sample

end Deduction
