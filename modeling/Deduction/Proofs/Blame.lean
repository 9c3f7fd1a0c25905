import Deduction.Proofs.Solution

/-!
# Faults of well-scoped searches

A search names no unknown variable when the variables of its goal are declared and the
rules reach other rules by calls only. Then the only faults left are payloads that refuse
to be compared, and each is traced to two constants of the program, the goal or the
environment. So where those constants compare without a fault there is none at all.
-/

namespace Deduction

/-- Two constants of the set refuse to be compared, and that is the fault. -/
def Fault.Blames (U : Constant → Prop) (f : Fault) : Prop :=
  ∃ c d cause, U c ∧ U d ∧ c.agrees d = .error cause ∧ f = .payload cause

/-- Any two constants of the set can be compared. -/
def Comparable (U : Constant → Prop) (judge : Judge := Payload.agrees) : Prop :=
  ∀ c d, U c → U d → ∃ verdict, c.agrees d judge = .ok verdict

/-- Where all constants can be compared, no comparison is to blame. -/
theorem Comparable.not_blames {U : Constant → Prop} (hU : Comparable U) {f : Fault} :
    ¬ f.Blames U := by
  rintro ⟨c, d, cause, hc, hd, hcd, _⟩
  obtain ⟨verdict, hok⟩ := hU c d hc hd
  rw [hok] at hcd
  cases hcd

namespace Goal

/-- The goal reaches rules by calls only, and asks no host. -/
def CallsOnly : Goal → Prop
  | truth | falsity | call _ => True
  | and p q | or p q => p.CallsOnly ∧ q.CallsOnly
  | not p => p.CallsOnly
  | apply _ | host _ => False

/-- A goal that can be solved in an environment: its patterns speak of declared variables,
and so do its calls where they are not a rule's own. -/
def Ready (U : Constant → Prop) (k : Env) : Goal → Prop
  | truth | falsity => True
  | and p q | or p q => p.Ready U k ∧ q.Ready U k
  | not p => p.Ready U k
  | apply g => Pattern.Each (Term.Within U k) g
  | call es => Expr.EachOf (Term.Over U) es ∧
      (k.scope = .query → Expr.EachOf (Term.Vars fun v => k.declares v = true) es)
  | host _ => False

variable {U : Constant → Prop} {k k' : Env} {p : Goal}

/-- A goal stays ready as its environment is continued. -/
theorem Ready.mono (h : p.Ready U k) (hk : k.Continues k') : p.Ready U k' := by
  induction p with
  | truth => trivial
  | falsity => trivial
  | and p q ihp ihq => exact ⟨ihp h.1, ihq h.2⟩
  | or p q ihp ihq => exact ⟨ihp h.1, ihq h.2⟩
  | not p ih => exact ih h
  | apply g => exact fun t ht => (h t ht).mono hk.toExtends
  | call es =>
    refine ⟨h.1, fun hs => ?_⟩
    rw [hk.scope] at hs
    exact (h.2 hs).mono fun t ht v hv => hk.declared (ht v hv)
  | host g => exact h.elim

/-- The body of a rule is ready in the scope of the rule. -/
theorem CallsOnly.ready (h : p.CallsOnly) (hp : p.Each (Term.Over U)) (hs : k.scope = .rule) :
    p.Ready U k := by
  induction p with
  | truth => trivial
  | falsity => trivial
  | and p q ihp ihq => exact ⟨ihp h.1 hp.1, ihq h.2 hp.2⟩
  | or p q ihp ihq => exact ⟨ihp h.1 hp.1, ihq h.2 hp.2⟩
  | not p ih => exact ih h hp
  | apply g => exact h.elim
  | call es => exact ⟨hp, fun hq => by rw [hs] at hq; cases hq⟩
  | host g => exact h.elim

/-- A goal of calls asks no host. -/
theorem CallsOnly.hostFree (h : p.CallsOnly) : p.HostFree := by
  induction p with
  | truth => trivial
  | falsity => trivial
  | and p q ihp ihq => exact ⟨ihp h.1, ihq h.2⟩
  | or p q ihp ihq => exact ⟨ihp h.1, ihq h.2⟩
  | not p ih => exact ih h
  | apply g => trivial
  | call es => trivial
  | host g => exact h

/-- A goal whose variables are all declared is ready. -/
theorem ready_of_declared (hfree : p.HostFree) (hp : p.Each (Term.Over U))
    (hvars : p.Each (Term.Vars fun v => k.declares v = true)) : p.Ready U k := by
  induction p with
  | truth => trivial
  | falsity => trivial
  | and p q ihp ihq =>
    exact ⟨ihp hfree.1 hp.1 hvars.1, ihq hfree.2 hp.2 hvars.2⟩
  | or p q ihp ihq =>
    exact ⟨ihp hfree.1 hp.1 hvars.1, ihq hfree.2 hp.2 hvars.2⟩
  | not p ih => exact ih hfree hp hvars
  | apply g => exact fun t ht => ⟨hp t ht, hvars t ht⟩
  | call es => exact ⟨hp, fun _ => hvars⟩
  | host g => exact hfree.elim

/-- A goal that is ready to be solved asks no host. -/
theorem Ready.hostFree (h : p.Ready U k) : p.HostFree := by
  induction p with
  | truth => trivial
  | falsity => trivial
  | and p q ihp ihq => exact ⟨ihp h.1, ihq h.2⟩
  | or p q ihp ihq => exact ⟨ihp h.1, ihq h.2⟩
  | not p ih => exact ih h
  | apply g => trivial
  | call es => trivial
  | host g => exact h

/-- The constants of a ready goal belong to the set. -/
theorem Ready.over (h : p.Ready U k) : p.Each (Term.Over U) := by
  induction p with
  | truth => trivial
  | falsity => trivial
  | and p q ihp ihq => exact ⟨ihp h.1, ihq h.2⟩
  | or p q ihp ihq => exact ⟨ihp h.1, ihq h.2⟩
  | not p ih => exact ih h
  | apply g => exact fun t ht => (h t ht).1
  | call es => exact h.1
  | host g => exact h.elim

end Goal

/-- The bodies of all rules reach other rules by calls only. -/
def Program.CallsOnly (program : Program) : Prop := ∀ r ∈ program, r.body.CallsOnly

/-- A program whose bodies are made of calls asks no host. -/
theorem Program.CallsOnly.hostFree {program : Program} (h : program.CallsOnly) :
    program.HostFree := fun r hr => (h r hr).hostFree

/-- A prelude whose variables are declared is ready as a goal. -/
theorem Prelude.ready_toGoal {U : Constant → Prop} {k : Env} {p : Prelude}
    (h : p.Each (Term.Within U k)) : p.toGoal.Ready U k := by
  induction p with
  | empty => trivial
  | define t es => exact each_definedBy (Term.within_keyword _) h
  | both p q ihp ihq => exact ⟨ihp h.1, ihq h.2⟩

/-! ## Faults of matching -/

section

variable {U : Constant → Prop} {k : Env} {f : Fault}

/-- A failed comparison is to be blamed on the two constants compared. -/
theorem Outcome.blames_ofComparison {c d : Constant} (hc : U c) (hd : U d)
    (h : Outcome.ofComparison (c.agrees d) = .error f) : f.Blames U := by
  cases hcd : c.agrees d with
  | error cause =>
    rw [hcd] at h
    cases h
    exact ⟨c, d, cause, hc, hd, hcd, rfl⟩
  | ok verdict => cases verdict <;> rw [hcd] at h <;> cases h

namespace Env

/-- Resolving a declared variable can only fail over the comparison with the constant that it has
already. -/
theorem resolve_blames (hk : k.WellFormed) (hU : k.Over U) {v : Variable} {c : Constant}
    (hv : k.declares v = true) (hc : U c) (h : k.resolve v c = .error f) : f.Blames U := by
  obtain ⟨⟨last, value⟩, hroot, hends⟩ := hk.root_eq hv
  cases value with
  | none => simp only [resolve, hroot] at h; cases h
  | some d =>
    simp only [resolve, hroot] at h
    exact Outcome.blames_ofComparison (hU.statuses hends.get?_last) hc h

/-- Linking two declared variables can only fail over the comparison of their constants. -/
theorem link_blames (hk : k.WellFormed) (hU : k.Over U) {v w : Variable}
    (hv : k.declares v = true) (hw : k.declares w = true) (h : k.link v w = .error f) :
    f.Blames U := by
  obtain ⟨⟨lastv, valv⟩, hrootv, hendsv⟩ := hk.root_eq hv
  obtain ⟨⟨lastw, valw⟩, hrootw, hendsw⟩ := hk.root_eq hw
  simp only [link, hrootv, hrootw] at h
  split at h
  · cases h
  · cases valv with
    | none => cases h
    | some c =>
      cases valw with
      | none => cases h
      | some d =>
        exact Outcome.blames_ofComparison (hU.statuses hendsv.get?_last)
          (hU.statuses hendsw.get?_last) h

/-- Equating two referents can only fail over a comparison. -/
theorem equate_blames (hk : k.WellFormed) (hU : k.Over U) {p r : Referent} (hp : p.Within U k)
    (hr : r.Within U k) (h : k.equate p r = .error f) : f.Blames U := by
  cases p with
  | var v =>
    cases r with
    | var w => exact link_blames hk hU hp hr h
    | const c => exact resolve_blames hk hU hp hr h
  | const c =>
    cases r with
    | var w => exact resolve_blames hk hU hr hp h
    | const d => cases h

/-- Assigning a declared referent to a rule's own variable can only fail over a comparison. -/
theorem assignReferent_blames (hk : k.WellFormed) (hU : k.Over U) {l : Variable} {r : Referent}
    (hr : r.Within U k) (h : k.assignReferent l r = .error f) : f.Blames U := by
  cases hl : k.referent? l with
  | none =>
    cases r with
    | const c => simp only [assignReferent, hl] at h; cases h
    | var v =>
      have hv : k.declares v = true := hr
      simp only [assignReferent, hl, hv, if_true] at h
      cases h
  | some p =>
    have hp := hk.referent_within hU hl
    simp only [assignReferent, hl] at h
    split at h
    · rename_i cause hagrees
      cases h
      cases p with
      | const c =>
        cases r with
        | const d => exact ⟨c, d, cause, hp, hr, hagrees, rfl⟩
        | var w => cases hagrees
      | var v => cases r <;> cases hagrees
    · cases h
    · exact equate_blames hk hU hp hr h

/-- Assigning a term whose variables are declared can only fail over a comparison. -/
theorem assign_blames (hk : k.WellFormed) (hU : k.Over U) {l : Variable} {t : Term}
    (ht : t.Within U k) (h : k.assign l t = .error f) : f.Blames U := by
  cases t with
  | hole => cases h
  | keyword a => cases h
  | const c =>
    rw [assign] at h
    exact assignReferent_blames (r := .const c) hk hU (Term.within_const.mp ht) h
  | var v =>
    rw [assign] at h
    exact assignReferent_blames (r := .var v) hk hU (Term.within_var.mp ht) h

end Env

/-- Matching two terms can only fail over a comparison, if the goal's variable is declared. -/
theorem Term.matchGoal_blames (hk : k.WellFormed) (hU : k.Over U) {s t : Term} (hs : s.Over U)
    (ht : t.Within U k) (h : s.matchGoal k t = .error f) : f.Blames U := by
  cases s with
  | hole => cases t <;> cases h
  | keyword a =>
    cases t with
    | keyword b => simp only [Term.matchGoal] at h; cases h
    | const c => cases h
    | var v => cases h
    | hole => cases h
  | const c =>
    cases t with
    | keyword b => cases h
    | const d => exact Outcome.blames_ofComparison (hs c rfl) (Term.within_const.mp ht) h
    | var v => exact Env.resolve_blames hk hU (Term.within_var.mp ht) (hs c rfl) h
    | hole => cases h
  | var l =>
    rw [Term.matchGoal_var] at h
    exact Env.assign_blames hk hU ht h

/-- The first fault in matching terms position by position is that of a comparison. -/
theorem Pattern.matchTerms_blames {condition goal : Pattern} (hk : k.WellFormed) (hU : k.Over U)
    (hc : Pattern.Each (Term.Over U) condition) (hg : Pattern.Each (Term.Within U k) goal)
    (h : Pattern.matchTerms condition goal k = .error f) : f.Blames U := by
  induction condition generalizing goal k with
  | nil => simp only [Pattern.matchTerms] at h; cases h
  | cons s ss ih =>
    cases goal with
    | nil => simp only [Pattern.matchTerms] at h; cases h
    | cons t ts =>
      have hs := hc s List.mem_cons_self
      have ht := hg t List.mem_cons_self
      rw [Pattern.matchTerms] at h
      split at h
      · rename_i f' hf
        cases h
        exact Term.matchGoal_blames hk hU hs ht hf
      · rename_i o ho
        split at h
        · cases h
        · rename_i k₁ hk₁
          have hstep := (Term.matchGoal_updates hU hs ht.1 ho hk₁).evolves
          obtain ⟨hwf, hcontinues⟩ := hstep.wellFormed hk
          exact ih hwf (hstep.over hU) (fun x hx => hc x (List.mem_cons_of_mem s hx))
            (fun x hx => (hg x (List.mem_cons_of_mem t hx)).mono hcontinues.toExtends) h

/-- A match that meets a fault was refused by two payloads. -/
theorem Pattern.matchGoal_blames {condition goal : Pattern} (hk : k.WellFormed) (hU : k.Over U)
    (hc : Pattern.Each (Term.Over U) condition) (hg : Pattern.Each (Term.Within U k) goal)
    (h : Pattern.matchGoal condition goal k = .error f) : f.Blames U := by
  rw [Pattern.matchGoal] at h
  split at h
  · exact Pattern.matchTerms_blames hk.startMatching hU.startMatching hc hg h
  · cases h

/-- A match of constants that can all be compared meets no fault. -/
theorem Pattern.matchGoal_eq_ok_of_comparable {condition goal : Pattern} (hk : k.WellFormed)
    (hU : k.Over U) (hcomparable : Comparable U) (hc : Pattern.Each (Term.Over U) condition)
    (hg : Pattern.Each (Term.Within U k) goal) :
    ∃ result, Pattern.matchGoal condition goal k = .ok result := by
  cases h : Pattern.matchGoal condition goal k with
  | ok result => exact ⟨result, rfl⟩
  | error f => exact (hcomparable.not_blames (Pattern.matchGoal_blames hk hU hc hg h)).elim

end

/-- A solution of a goal that is ready is well formed, continues the environment of the goal and
knows no constant from elsewhere. -/
theorem Program.Solves.of_ready {U : Constant → Prop} {program : Program} {p : Goal} {k k' : Env}
    (h : program.Solves p k k') (hcalls : program.CallsOnly)
    (hprogram : program.Each (Term.Over U)) (hp : p.Ready U k) (hk : k.WellFormed)
    (hU : k.Over U) : k'.WellFormed ∧ k'.Over U ∧ k.Continues k' := by
  obtain ⟨hk', hcontinues⟩ := h.continues (hcalls.hostFree.hosts _) (hp.hostFree.hosts _) hk
  exact ⟨hk', h.over hprogram hcalls.hostFree hp.over hp.hostFree hk hU, hcontinues⟩

/-! ## Faults of a search -/

/-- A fault of a goal that is ready was raised by two payloads. -/
theorem Program.Faults.blames {U : Constant → Prop} {program : Program} {p : Goal} {k : Env}
    {f : Fault} (h : program.Faults p k f) (hcalls : program.CallsOnly)
    (hprogram : program.Each (Term.Over U)) (hp : p.Ready U k) (hk : k.WellFormed)
    (hU : k.Over U) : f.Blames U := by
  have hfree := hcalls.hostFree
  induction h with
  | andFirst _ ih => exact ih hp.1 hk hU
  | andSecond hsolves _ ih =>
    obtain ⟨hk₁, hU₁, hcontinues⟩ := hsolves.of_ready hcalls hprogram hp.1 hk hU
    exact ih (hp.2.mono hcontinues) hk₁ hU₁
  | orLeft _ ih => exact ih hp.1 hk hU
  | orRight _ ih => exact ih hp.2 hk hU
  | not _ ih => exact ih hp hk hU
  | matching hr hm => exact Pattern.matchGoal_blames hk hU (hprogram _ hr).1 hp hm
  | body hr hm _ ih =>
    obtain ⟨hk₁, _, hscope⟩ := Pattern.matchGoal_wellFormed hm hk
    have hU₁ := Pattern.over_of_matchGoal hU (hprogram _ hr).1 (fun t ht => (hp t ht).1) hm
    exact ih ((hcalls _ hr).ready (hprogram _ hr).2 hscope) hk₁ hU₁
  | restoring hr hm hsolves hrestore =>
    obtain ⟨hk₁, hmatch, _⟩ := Pattern.matchGoal_wellFormed hm hk
    obtain ⟨hk₂, hbody⟩ := hsolves.continues (hfree.hosts _)
      (Goal.HostFree.hosts (hfree _ hr) _) hk₁
    have hextends := hmatch.trans hbody.toExtends
    obtain ⟨k', hk'⟩ := Env.restore_eq_ok hk₂.grounded fun v => hextends.declared
    rw [hk'] at hrestore
    cases hrestore
  | flattening hx =>
    obtain ⟨x, hok⟩ := Expr.flattenAll_eq_ok .empty hk hp.2
    rw [Expr.flattenPhrase, hok] at hx
    cases hx
  | call hx _ ih =>
    obtain ⟨hterms, hprelude⟩ := Expr.flattenPhrase_within hk hU hp.1 hx
    exact ih ⟨Prelude.ready_toGoal hprelude, hterms⟩ (Expr.flattenPhrase_wellFormed hx hk).1
      ((Expr.flattenAll_evolves hx).over hU)
  | host => exact hp.elim

/-- Well-scoped searches name no unknown variable. Every fault that comes out of a goal whose
variables are declared is a refused comparison, and where the constants of program, goal
and environment can all be compared no fault comes out at all. -/
theorem Goal.payload_fault_of_mem_solve {program : Program} {goal : Goal} {k : Env}
    (hcalls : program.CallsOnly) (hk : k.WellFormed) (hfree : goal.HostFree)
    (hvars : goal.Each (Term.Vars fun v => k.declares v = true)) (depth limit : Nat)
    (choice : Nat → Bool) :
    (∀ f, .error f ∈ (goal.solve program.select depth limit choice k).items →
      ∃ cause, f = .payload cause) ∧
    ∀ U, Comparable U → program.Each (Term.Over U) → k.Over U → goal.Each (Term.Over U) →
      ∀ f, .error f ∉ (goal.solve program.select depth limit choice k).items := by
  have hblames : ∀ (U : Constant → Prop) f, program.Each (Term.Over U) → k.Over U →
      goal.Each (Term.Over U) →
      .error f ∈ (goal.solve program.select depth limit choice k).items → f.Blames U := by
    intro U f hprogram hU hgoal h
    have hfaults : program.Faults goal k f := Program.answers_of_mem_solve h
    exact hfaults.blames hcalls hprogram (ready_of_declared hfree hgoal hvars) hk hU
  constructor
  · intro f h
    have hany : ∀ t : Term, t.Over fun _ => True := fun _ _ _ => trivial
    obtain ⟨_, _, cause, _, _, _, hf⟩ := hblames (fun _ => True) f
      (program.each_of_forall hany) k.over_univ (goal.each_of_forall hany) h
    exact ⟨cause, hf⟩
  · intro U hcomparable hprogram hU hgoal f h
    exact hcomparable.not_blames (hblames U f hprogram hU hgoal h)

namespace Sample

/-- A number is odd when boxing it gives nothing even; the only even number is two. -/
def boxes : Program := [
  ⟨[.keyword (.named "odd"), .var (.named "x")],
    .not (.call [.term (.keyword (.named "even")),
      .phrase [.term (.const (.atom "box")), .term (.var (.named "x"))]])⟩,
  .fact ((Variable.named "t").definedBy [.const (.atom "box"), .var (.named "t")]),
  .fact [.keyword (.named "even"), .const (.value (.int 2))]]

/-- Asks whether a payload is odd. -/
def odd (p : Payload) : Goal := .apply [.keyword (.named "odd"), .const (.value p)]

/-- The constants of the program and the number three. -/
def BoxedNumber (c : Constant) : Prop :=
  c = .atom "box" ∨ c = .value (.int 2) ∨ c = .value (.int 3)

/-- An unstable payload is refused under the negation, three rules deep, and no other fault
comes out; three is found to be odd without any. -/
theorem boxes_faults :
    (.error (.payload .unstable) ∈
        ((odd (.unstable "u")).solve boxes.select 3 5 Search.alternate (.declaring [])).items ∧
      ∀ f, .error f ∈
          ((odd (.unstable "u")).solve boxes.select 3 5 Search.alternate (.declaring [])).items →
        ∃ cause, f = .payload cause) ∧
    (((odd (.int 3)).solve boxes.select 3 5 Search.alternate (.declaring [])).items =
        [.ok (.declaring [])] ∧
      ∀ f, .error f ∉
        ((odd (.int 3)).solve boxes.select 3 5 Search.alternate (.declaring [])).items) := by
  have hcalls : boxes.CallsOnly := by simp [Program.CallsOnly, boxes, Rule.fact, Goal.CallsOnly]
  have hk : (Env.declaring []).WellFormed := Env.wellFormed_declaring []
  have hvars : ∀ p, (odd p).Each (Term.Vars fun v => (Env.declaring []).declares v = true) := by
    simp [odd, Goal.Each, Pattern.Each, Term.Vars]
  have hfree : ∀ p, (odd p).HostFree := fun _ => trivial
  refine ⟨⟨by decide, ?_⟩, by decide, ?_⟩
  · exact (Goal.payload_fault_of_mem_solve hcalls hk (hfree _) (hvars _) 3 5 Search.alternate).1
  · refine (Goal.payload_fault_of_mem_solve hcalls hk (hfree _) (hvars _) 3 5
      Search.alternate).2 BoxedNumber ?_ ?_ ?_ ?_
    · rintro c d (rfl | rfl | rfl) (rfl | rfl | rfl) <;> exact ⟨_, rfl⟩
    · simp [Program.Each, boxes, Rule.fact, Goal.Each, Expr.EachOf, Expr.Each, Pattern.Each,
        Term.Over, Variable.definedBy, BoxedNumber]
    · exact Env.over_declaring _ []
    · simp [odd, Goal.Each, Pattern.Each, Term.Over, BoxedNumber]

end Sample

end Deduction
