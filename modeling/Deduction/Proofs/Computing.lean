import Deduction.Proofs.Framing
import Deduction.Proofs.Growth
import Deduction.Sample.Arithmetic

/-!
# Computed definitions

What one application of an arithmetic rule does, in an environment in which the operands are known
to be integers. A definition has one solution: its variable is resolved to the computed integer, and
nothing else is learned, as the scope of the rule is left with just that. Of two integers it is
found whether they are the same, and a variable without a value gets the value of an integer that it
is to be the same as. Further rules may follow the arithmetic ones, as long as they have conditions
of another length.
-/

namespace Deduction

/-- A variable that has a value already gets another one, and no variable is added. -/
theorem VarMap.size_insert_of_contains {α : Type} {m : VarMap α} {v : Variable}
    (hv : m.contains v = true) (a : α) : (m.insert v a).size = m.size := by
  refine size_eq_of_contains fun w => ?_
  rw [contains_insert]
  by_cases hw : w = v <;> simp [hw, hv]

/-- A comparison that came to a verdict. -/
theorem Outcome.ofComparison_ok (b : Bool) :
    ofComparison (.ok b) = .ok (if b = true then known else clash) := by
  cases b <;> rfl

/-- Integers agree if they are equal. -/
theorem Constant.agrees_int (m n : Int64) :
    (Constant.value (.int m)).agrees (.value (.int n)) = .ok (decide (m = n)) := by
  by_cases h : m = n
  · simp [h]
  · simp [Constant.agrees, Payload.agrees, h]

namespace Env

variable {inner outer k k' : Env}

/-- A scope that knows the same as the outer one is left without a trace. -/
theorem KnowsAs.restore_self (h : k.KnowsAs inner) : inner.restore k = .ok k := by
  rw [h.restore_eq k]
  simp [restore, retained, Except.map]

/-- A scope in which one outer variable got another status is left with just that. -/
theorem KnowsAs.restore_setStatus (h : k.KnowsAs inner) {v : Variable} (hv : k.declares v = true)
    (s : Status) : (inner.setStatus v s).restore k = .ok (k.setStatus v s) := by
  have hset : (k.setStatus v s).KnowsAs (inner.setStatus v s) :=
    ⟨by rw [setStatus_statuses, setStatus_statuses, h.statuses], h.next⟩
  have hsize : (k.setStatus v s).statuses.size = k.statuses.size :=
    VarMap.size_insert_of_contains hv s
  rw [hset.restore_eq k]
  simp only [restore, retained, hsize, if_true, Except.map]
  simp [setStatus]

/-! ## Integers -/

/-- The environment in which the variable is resolved to the integer. -/
def setInt (k : Env) (v : Variable) (n : Int64) : Env :=
  k.setStatus v (.resolved (.value (.int n)))

/-- The referent is known to be the integer. -/
def Reads (k : Env) : Referent → Int64 → Prop
  | .const c, n => c = .value (.int n)
  | .var v, n => k.valueOf v = .ok (some (.value (.int n)))

variable {r : Referent} {n : Int64}

/-- What a referent reads as stays known when more is learned. -/
theorem Reads.mono (h : k.Reads r n) (hk : k.Extends k') : k'.Reads r n := by
  cases r with
  | const c => exact h
  | var v => exact hk.valueOf_eq h

/-- What is known to be an integer is a constant or a declared variable. -/
theorem Reads.within (h : k.Reads r n) : r.Within (fun _ => True) k := by
  cases r with
  | const c => trivial
  | var v =>
    obtain ⟨root, hroot, _⟩ := exists_ends_of_valueOf h
    exact hroot.contains

/-- A rule's own variable is read through its referent. -/
theorem Reads.operand_eq (h : k.Reads r n) (host : String) {l : Variable}
    (hl : k.referent? l = some r) : k.operand host l = .ok n := by
  cases r with
  | const c =>
    cases h
    simp [operand, lookup, hl, Constant.int?]
  | var v =>
    have hv : k.valueOf v = .ok (some (.value (.int n))) := h
    simp [operand, lookup, hl, hv, Constant.int?]

/-- What a referent reads as depends on what is known, not on the scope. -/
theorem Reads.of_knowsAs (h : k.Reads r n) (hk : k.KnowsAs k') : k'.Reads r n := by
  cases r with
  | const c => exact h
  | var v =>
    have hv : k'.valueOf v = k.valueOf v := by rw [valueOf, root, hk.statuses, valueOf, root]
    exact hv.trans h

/-- Setting an own variable is seen under that variable only. -/
theorem referent?_setLocal (k : Env) (l l' : Variable) (r : Referent) :
    (k.setLocal l r).referent? l' = if l' = l then some r else k.referent? l' :=
  VarMap.get?_insert _ _ _ _

/-- A bound variable of a rule is compared with what is assigned to it, and equated with it. -/
theorem assign_of_bound {r' : Referent} {l : Variable} (hl : k.referent? l = some r) {b : Bool}
    (hb : r.agrees r' = .ok b) :
    k.assign l r'.toTerm = if b = true then .ok .known else k.equate r r' := by
  cases r' <;> cases b <;> simp [Referent.toTerm, assign, assignReferent, hl, hb]

/-- A variable that stands for a constant already is compared with another one. -/
theorem Ends.resolve_of_known {v last : Variable} {d : Constant}
    (h : Ends k.statuses v ⟨last, some d⟩) (c : Constant) :
    k.resolve v c = Outcome.ofComparison (d.agrees c) := by
  simp only [resolve, h.root_eq]

/-- A variable without a value is resolved at the end of its chain. -/
theorem Ends.resolve_of_unknown {v last : Variable} (h : Ends k.statuses v ⟨last, none⟩)
    (c : Constant) : k.resolve v c = .ok (.learned (k.setStatus last (.resolved c))) := by
  simp only [resolve, h.root_eq]

/-- Two variables that stand for constants are linked by a comparison of these. -/
theorem Ends.link_of_known {v w last last' : Variable} {c d : Constant}
    (hv : Ends k.statuses v ⟨last, some c⟩) (hw : Ends k.statuses w ⟨last', some d⟩) :
    k.link v w = Outcome.ofComparison (c.agrees d) := by
  by_cases hlast : last = last'
  · subst hlast
    cases hv.ends_last.unique hw.ends_last
    simp [link, hv.root_eq, hw.root_eq, Outcome.ofComparison]
  · simp [link, hv.root_eq, hw.root_eq, hlast]

/-- A root is unresolved or has a constant, and not both. -/
theorem Ends.last_ne {v w last last' : Variable} {d : Constant}
    (hv : Ends k.statuses v ⟨last, none⟩) (hw : Ends k.statuses w ⟨last', some d⟩) :
    last ≠ last' := by
  rintro rfl
  cases hv.ends_last.unique hw.ends_last

/-- An unresolved root is linked to the root of a variable that stands for a constant. -/
theorem Ends.link_of_unknown {v w last last' : Variable} {d : Constant}
    (hv : Ends k.statuses v ⟨last, none⟩) (hw : Ends k.statuses w ⟨last', some d⟩) :
    k.link v w = .ok (.learned (k.setStatus last (.linked last'))) := by
  simp [link, hv.root_eq, hw.root_eq, hv.last_ne hw]

/-- What is bound to one integer can be assigned another one if the two are equal. -/
theorem Reads.assign_eq {r' : Referent} {m : Int64} {l : Variable} (h : k.Reads r m)
    (h' : k.Reads r' n) (hl : k.referent? l = some r) :
    k.assign l r'.toTerm = .ok (if m = n then .known else .clash) := by
  have hcompare : ∀ a b : Int64,
      Outcome.ofComparison ((Constant.value (.int a)).agrees (.value (.int b))) =
        .ok (if a = b then .known else .clash) := by
    intro a b
    simp only [Constant.agrees_int, Outcome.ofComparison_ok, decide_eq_true_eq]
  cases r with
  | const c =>
    cases h
    cases r' with
    | const d =>
      cases h'
      have hagrees : (Referent.const (.value (.int m))).agrees (.const (.value (.int n))) =
          .ok (decide (m = n)) := Constant.agrees_int m n
      rw [assign_of_bound hl hagrees]
      by_cases hmn : m = n <;> simp [hmn, equate]
    | var w =>
      obtain ⟨⟨last, value⟩, hw, rfl⟩ := exists_ends_of_valueOf h'
      have hagrees : (Referent.const (.value (.int m))).agrees (.var w) = .ok false := rfl
      rw [assign_of_bound hl hagrees, if_neg (by decide)]
      exact (hw.resolve_of_known _).trans ((hcompare n m).trans (by simp only [eq_comm]))
  | var v =>
    obtain ⟨⟨last, value⟩, hv, rfl⟩ := exists_ends_of_valueOf h
    cases r' with
    | const d =>
      cases h'
      have hagrees : (Referent.var v).agrees (.const (.value (.int n))) = .ok false := rfl
      rw [assign_of_bound hl hagrees, if_neg (by decide)]
      exact (hv.resolve_of_known _).trans (hcompare m n)
    | var w =>
      obtain ⟨⟨last', value'⟩, hw, rfl⟩ := exists_ends_of_valueOf h'
      have hagrees : (Referent.var v).agrees (.var w) = .ok (v == w) := rfl
      rw [assign_of_bound hl hagrees]
      by_cases hvw : v = w
      · subst hvw
        cases hv.unique hw
        simp
      · simp only [beq_iff_eq, hvw, if_false]
        exact (hv.link_of_known hw).trans (hcompare m n)

/-- What is bound to an unresolved variable is linked to a variable with a constant. -/
theorem Ends.assign_var {l x u w last : Variable} {d : Constant}
    (hx : Ends k.statuses x ⟨u, none⟩) (hw : Ends k.statuses w ⟨last, some d⟩)
    (hl : k.referent? l = some (.var x)) :
    k.assign l (.var w) = .ok (.learned (k.setStatus u (.linked last))) := by
  have hne : (x == w) = false := by
    rw [beq_eq_false_iff_ne]
    rintro rfl
    cases hx.unique hw
  have hagrees : (Referent.var x).agrees (.var w) = .ok false := congrArg Except.ok hne
  exact (assign_of_bound hl hagrees).trans (hx.link_of_unknown hw)

/-- What is bound to an unresolved variable gets to be the assigned integer, by a constant or by a
link at the end of the variable's chain. -/
theorem Reads.assign_unresolved {r' : Referent} {l x u : Variable} (h' : k.Reads r' n)
    (hl : k.referent? l = some (.var x)) (hx : Ends k.statuses x ⟨u, none⟩) :
    ∃ s, k.assign l r'.toTerm = .ok (.learned (k.setStatus u s)) ∧
      (k.setStatus u s).valueOf x = .ok (some (.value (.int n))) := by
  have hu := hx.get?_last_unresolved rfl
  cases r' with
  | const d =>
    cases h'
    refine ⟨.resolved (.value (.int n)), ?_, ?_⟩
    · have hagrees : (Referent.var x).agrees (.const (.value (.int n))) = .ok false := rfl
      exact (assign_of_bound hl hagrees).trans (hx.resolve_of_unknown _)
    · have hends := hx.insert_resolved (c := .value (.int n)) hu
      rw [if_pos rfl] at hends
      exact Ends.valueOf_eq (k := k.setStatus u _) hends
  | var w =>
    obtain ⟨⟨last, value⟩, hw, rfl⟩ := exists_ends_of_valueOf h'
    refine ⟨.linked last, hx.assign_var hw hl, ?_⟩
    have hends := hx.insert_linked hu hw.ends_last (hx.last_ne hw)
    rw [if_pos rfl] at hends
    exact Ends.valueOf_eq (k := k.setStatus u _) hends

end Env

namespace Pattern

variable {condition goal : Pattern} {k : Env}

/-- Patterns of the same length are matched position by position. -/
theorem matchGoal_of_length_eq (h : condition.length = goal.length) :
    condition.matchGoal goal k = condition.matchTerms goal k.startMatching := by
  rw [matchGoal, if_pos h]

/-- A pattern of another length is not matched. -/
theorem matchGoal_of_length_ne (h : condition.length ≠ goal.length) :
    condition.matchGoal goal k = .ok none := by
  rw [matchGoal, if_neg h]

/-- A keyword is matched by itself. -/
theorem matchTerms_keyword (a : Keyword) (ss ts : Pattern) :
    matchTerms (.keyword a :: ss) (.keyword a :: ts) k = matchTerms ss ts k := by
  simp only [matchTerms, Term.matchGoal, if_true, Outcome.after]

end Pattern

/-- Only rules with a condition of the goal's length have a say in the selection. -/
theorem Program.select_eq_filter (program : Program) (g : Pattern) (k : Env) :
    program.select g k = select (program.filter fun r => r.condition.length = g.length) g k := by
  induction program with
  | nil => rfl
  | cons r rs ih =>
    by_cases hlength : r.condition.length = g.length
    · rw [List.filter_cons_of_pos (by simpa using hlength), select, select, ih]
    · rw [List.filter_cons_of_neg (by simpa using hlength), select, Rule.matchGoal,
        Pattern.matchGoal_of_length_ne hlength, ih]

/-- An application with one match has the solutions of that match. -/
theorem Selector.applications_of_singleton {select : Selector} {g : Pattern} {k : Env} {m : Match}
    (h : select g k = [.ok m]) (depth : Nat) :
    applications select (depth + 1) g k =
      m.solutions (Goal.start (applications select depth) depth) k := by
  rw [applications, h]
  simp [Search.ofList, Search.bind]

open Search

namespace Sample

variable {k : Env} {t : Variable} {r r' : Referent} {m n : Int64} {name : String} {object : Nat}

/-! ## Host goals that compute -/

/-- The computed integer is handed on to the unresolved variable that the result is bound to. -/
theorem bindResult_ok (hresult : k.referent? result = some (.var t))
    (ht : k.statuses.get? t = some .unresolved) (n : Int64) :
    bindResult k (.ok n) = ⟨[], .ok (some (k.setInt t n))⟩ := by
  have hagrees : (Referent.var t).agrees (.const (.value (.int n))) = .ok false := rfl
  have hassign : k.assign result (Term.int n) = .ok (.learned (k.setInt t n)) :=
    (Env.assign_of_bound hresult hagrees).trans ((Env.Ends.unresolved ht).resolve_of_unknown _)
  simp only [bindResult, hassign]
  rfl

/-- A rule whose host goal computes the result teaches just that. -/
theorem solutions_of_bindResult {rule : Rule} {k₁ : Env} {compute : Env → Except Fault Int64}
    {applied : Pattern → Env → Search Item}
    (hbody : rule.body = .host (.once name object fun k => bindResult k (compute k)))
    (hk : k.KnowsAs k₁) (hresult : k₁.referent? result = some (.var t))
    (ht : k.statuses.get? t = some .unresolved) (hn : compute k₁ = .ok n) (turns : Nat) :
    Match.solutions (Goal.start applied (turns + 2)) k ⟨rule, k₁⟩ =
      one (.ok (k.setInt t n)) := by
  have hturn := bindResult_ok hresult (hk.statuses ▸ ht) n
  have hrestore : (k₁.setInt t n).restore k = .ok (k.setInt t n) :=
    hk.restore_setStatus (Env.declares_iff.mpr ⟨_, ht⟩) _
  simp [Match.solutions, Goal.start, hbody, Goal.opening, Host.once, hn, hturn, noted,
    Goal.explore, Host.answers, Host.turnsFrom, Search.map, hrestore, one]

/-! ## Conditions -/

/-- The scope in which a definition of the variable is computed from one operand. -/
def unaryScope (k : Env) (t : Variable) (r : Referent) : Env :=
  (k.startMatching.setLocal result (.var t)).setLocal (.named "a") r

/-- The scope in which a definition of the variable is computed from two operands. -/
def binaryScope (k : Env) (t : Variable) (r r' : Referent) : Env :=
  (unaryScope k t r).setLocal (.named "b") r'

/-- The scope of a unary rule knows what was known where it was applied. -/
theorem knowsAs_unaryScope : k.KnowsAs (unaryScope k t r) := ⟨rfl, rfl⟩

/-- The scope of a binary rule knows what was known where it was applied. -/
theorem knowsAs_binaryScope : k.KnowsAs (binaryScope k t r r') := ⟨rfl, rfl⟩

/-- The result and the operation are matched, and the operands are still to be. -/
theorem matchTerms_definedBy (ht : k.declares t = true) (name word : String) (ss ts : Pattern) :
    Pattern.matchTerms (result.definedBy (.const (.atom name) :: ss))
      (t.definedBy (.const (.atom word) :: ts)) k.startMatching =
      if name = word then Pattern.matchTerms ss ts (k.startMatching.setLocal result (.var t))
      else .ok none := by
  have hassign : k.startMatching.assign result (.var t) =
      .ok (.learned (k.startMatching.setLocal result (.var t))) :=
    Env.assign_of_unbound (r := .var t) (U := fun _ => True) rfl ht
  simp only [Variable.definedBy, Pattern.matchTerms, hassign, Outcome.after, Term.matchGoal,
    if_true, Constant.agrees, Outcome.ofComparison_ok, beq_iff_eq]
  by_cases hname : name = word
  · simp only [hname, if_true]
  · simp only [hname, if_false]

/-- When the result is bound, the first operand is not bound yet. -/
theorem referent?_startScope :
    (k.startMatching.setLocal result (.var t)).referent? (.named "a") = none := by
  rw [Env.referent?_setLocal]
  rfl

/-- In the scope of a unary rule the result and the operand are bound, and nothing else. -/
theorem referent?_unaryScope (k : Env) (t : Variable) (r : Referent) :
    (unaryScope k t r).referent? result = some (.var t) ∧
    (unaryScope k t r).referent? (.named "a") = some r ∧
    (unaryScope k t r).referent? (.named "b") = none := by
  simp only [unaryScope, Env.referent?_setLocal, result]
  exact ⟨rfl, rfl, rfl⟩

/-- In the scope of a binary rule the result and both operands are bound. -/
theorem referent?_binaryScope (k : Env) (t : Variable) (r r' : Referent) :
    (binaryScope k t r r').referent? result = some (.var t) ∧
    (binaryScope k t r r').referent? (.named "a") = some r ∧
    (binaryScope k t r r').referent? (.named "b") = some r' := by
  obtain ⟨hresult, ha, _⟩ := referent?_unaryScope k t r
  rw [binaryScope, Env.referent?_setLocal, Env.referent?_setLocal, Env.referent?_setLocal]
  exact ⟨hresult, ha, rfl⟩

/-- A unary rule matches the definition of a temporary by its operation. -/
theorem matchGoal_unary (f : Int64 → Int64) (ht : k.declares t = true)
    (hr : r.Within (fun _ => True) k) :
    Pattern.matchGoal (unary object name f).condition
      (t.definedBy [.const (.atom name), r.toTerm]) k = .ok (some (unaryScope k t r)) := by
  have hassign : (k.startMatching.setLocal result (.var t)).assign (.named "a") r.toTerm =
      .ok (.learned (unaryScope k t r)) := Env.assign_of_unbound referent?_startScope hr
  rw [Pattern.matchGoal_of_length_eq (by rfl), unary, matchTerms_definedBy ht, if_pos rfl]
  simp only [Pattern.matchTerms, Term.matchGoal_var, hassign, Outcome.after]

/-- A unary rule does not match the definition of another operation. -/
theorem matchGoal_unary_of_ne {word : String} (f : Int64 → Int64) (hne : name ≠ word)
    (ht : k.declares t = true) (s : Term) :
    Pattern.matchGoal (unary object name f).condition
      (t.definedBy [.const (.atom word), s]) k = .ok none := by
  rw [Pattern.matchGoal_of_length_eq (by rfl), unary, matchTerms_definedBy ht, if_neg hne]

/-- A binary rule matches the definition of a temporary by its operation. -/
theorem matchGoal_binary (f : Int64 → Int64 → Int64) (ht : k.declares t = true)
    (hr : r.Within (fun _ => True) k) (hr' : r'.Within (fun _ => True) k) :
    Pattern.matchGoal (binary object name f).condition
      (t.definedBy [.const (.atom name), r.toTerm, r'.toTerm]) k =
      .ok (some (binaryScope k t r r')) := by
  have hassign : (k.startMatching.setLocal result (.var t)).assign (.named "a") r.toTerm =
      .ok (.learned (unaryScope k t r)) := Env.assign_of_unbound referent?_startScope hr
  have hassign' : (unaryScope k t r).assign (.named "b") r'.toTerm =
      .ok (.learned (binaryScope k t r r')) :=
    Env.assign_of_unbound (referent?_unaryScope k t r).2.2 hr'
  rw [Pattern.matchGoal_of_length_eq (by rfl), binary, matchTerms_definedBy ht, if_pos rfl]
  simp only [Pattern.matchTerms, Term.matchGoal_var, hassign, hassign', Outcome.after]

/-! ## Computed definitions -/

section

variable {program : Program}

/-- The program begins with the arithmetic rules, and further rules have conditions of another
length. -/
def Reckons (object : Nat) (program : Program) : Prop :=
  ∃ more, program = arithmetic object ++ more ∧ ∀ r ∈ more, r.condition.length = 2

/-- The arithmetic program reckons. -/
theorem reckons_arithmetic (object : Nat) : Reckons object (arithmetic object) :=
  ⟨[], (List.append_nil _).symm, fun _ hr => nomatch hr⟩

/-- The arithmetic rules of the length of a goal remain. -/
theorem select_arithmetic (hprogram : Reckons object program) {g : Pattern} (hg : g.length ≠ 2)
    (k : Env) : program.select g k =
      Program.select ((arithmetic object).filter fun r => r.condition.length = g.length) g k := by
  obtain ⟨more, rfl, hmore⟩ := hprogram
  have hnone : more.filter (fun r => r.condition.length = g.length) = [] :=
    List.filter_eq_nil_iff.mpr fun r hr => by simpa [hmore r hr] using hg.symm
  rw [Program.select_eq_filter, List.filter_append, hnone, List.append_nil]

/-- Only the rule for sums is selected for a sum. -/
theorem select_add (hprogram : Reckons object program) (ht : k.declares t = true)
    (hr : r.Within (fun _ => True) k) (hr' : r'.Within (fun _ => True) k) :
    program.select
      (t.definedBy [.const (.atom "add"), r.toTerm, r'.toTerm]) k =
      [.ok ⟨binary object "add" fun a b => a + b, binaryScope k t r r'⟩] := by
  rw [select_arithmetic hprogram (by simp [Variable.definedBy])]
  change Program.select [binary object "add" fun a b => a + b] _ k = _
  simp only [Program.select, Rule.matchGoal, matchGoal_binary _ ht hr hr']

/-- Only the rule for negation is selected for a negative. -/
theorem select_neg (hprogram : Reckons object program) (ht : k.declares t = true)
    (hr : r.Within (fun _ => True) k) :
    program.select (t.definedBy [.const (.atom "neg"), r.toTerm]) k =
      [.ok ⟨unary object "neg" fun a => -a, unaryScope k t r⟩] := by
  rw [select_arithmetic hprogram (by simp [Variable.definedBy])]
  change Program.select [unary object "neg" fun a => -a, unary object "succ" fun a => a + 1] _ k = _
  simp only [Program.select, Rule.matchGoal, matchGoal_unary _ ht hr,
    matchGoal_unary_of_ne _ (show "succ" ≠ "neg" by decide) ht]

/-- Only the rule for successors is selected for a successor. -/
theorem select_succ (hprogram : Reckons object program) (ht : k.declares t = true)
    (hr : r.Within (fun _ => True) k) :
    program.select (t.definedBy [.const (.atom "succ"), r.toTerm]) k =
      [.ok ⟨unary object "succ" fun a => a + 1, unaryScope k t r⟩] := by
  rw [select_arithmetic hprogram (by simp [Variable.definedBy])]
  change Program.select [unary object "neg" fun a => -a, unary object "succ" fun a => a + 1] _ k = _
  simp only [Program.select, Rule.matchGoal, matchGoal_unary _ ht hr,
    matchGoal_unary_of_ne _ (show "neg" ≠ "succ" by decide) ht]

/-- The solution of a definition that is computed from one operand. -/
private theorem applications_unary {f : Int64 → Int64}
    (hselect : program.select (t.definedBy [.const (.atom name), r.toTerm]) k =
      [.ok ⟨unary object name f, unaryScope k t r⟩])
    (ht : k.statuses.get? t = some .unresolved) (hr : k.Reads r n) (depth : Nat) :
    Selector.applications program.select (depth + 3)
      (t.definedBy [.const (.atom name), r.toTerm]) k = one (.ok (k.setInt t (f n))) := by
  obtain ⟨hresult, ha, _⟩ := referent?_unaryScope k t r
  have hn : ((unaryScope k t r).operand name (.named "a")).map f = .ok (f n) := by
    rw [(hr.of_knowsAs knowsAs_unaryScope).operand_eq name ha]
    rfl
  rw [Selector.applications_of_singleton hselect]
  exact solutions_of_bindResult rfl knowsAs_unaryScope hresult ht hn depth

/-- Applying the rules to a negative resolves the temporary with it, once. -/
theorem applications_neg (hprogram : Reckons object program)
    (ht : k.statuses.get? t = some .unresolved) (hr : k.Reads r n) (depth : Nat) :
    Selector.applications program.select (depth + 3)
      (t.definedBy [.const (.atom "neg"), r.toTerm]) k = one (.ok (k.setInt t (-n))) :=
  applications_unary (select_neg hprogram (Env.declares_iff.mpr ⟨_, ht⟩) hr.within) ht hr depth

/-- Applying the rules to a successor resolves the temporary with it, once. -/
theorem applications_succ (hprogram : Reckons object program)
    (ht : k.statuses.get? t = some .unresolved) (hr : k.Reads r n) (depth : Nat) :
    Selector.applications program.select (depth + 3)
      (t.definedBy [.const (.atom "succ"), r.toTerm]) k = one (.ok (k.setInt t (n + 1))) :=
  applications_unary (select_succ hprogram (Env.declares_iff.mpr ⟨_, ht⟩) hr.within) ht hr depth

/-- Applying the rules to a sum resolves the temporary with it, once. -/
theorem applications_add (hprogram : Reckons object program)
    (ht : k.statuses.get? t = some .unresolved) (hr : k.Reads r m) (hr' : k.Reads r' n)
    (depth : Nat) :
    Selector.applications program.select (depth + 3)
      (t.definedBy [.const (.atom "add"), r.toTerm, r'.toTerm]) k =
      one (.ok (k.setInt t (m + n))) := by
  obtain ⟨hresult, ha, hb⟩ := referent?_binaryScope k t r r'
  have hread := (hr.of_knowsAs knowsAs_binaryScope).operand_eq "add" ha
  have hread' := (hr'.of_knowsAs knowsAs_binaryScope).operand_eq "add" hb
  rw [Selector.applications_of_singleton
    (select_add hprogram (Env.declares_iff.mpr ⟨_, ht⟩) hr.within hr'.within)]
  refine solutions_of_bindResult rfl knowsAs_binaryScope hresult ht ?_ depth
  simp only [hread, hread']
  rfl

/-! ## Things that are the same -/

/-- The scope in which the first of two operands has been matched. -/
def sameScope (k : Env) (r : Referent) : Env := k.startMatching.setLocal (.named "x") r

/-- The scope of the rule for the same knows what was known where it was applied. -/
theorem knowsAs_sameScope : k.KnowsAs (sameScope k r) := ⟨rfl, rfl⟩

/-- In the scope of the rule for the same its only variable is bound to what was given first. -/
theorem referent?_sameScope : (sameScope k r).referent? (.named "x") = some r :=
  VarMap.get?_insert_self _ _ _

/-- Two things are the same if the second one can be assigned to what is bound to the first. -/
theorem applications_same (hprogram : Reckons object program)
    (hr : r.Within (fun _ => True) k) {o : Outcome}
    (ho : (sameScope k r).assign (.named "x") r'.toTerm = .ok o) (depth : Nat) :
    Selector.applications program.select (depth + 1)
      [.keyword (.named "same"), r.toTerm, r'.toTerm] k =
      match o.after (sameScope k r) with
      | none => done
      | some k₁ => one (k₁.restore k) := by
  have hassign : k.startMatching.assign (.named "x") r.toTerm = .ok (.learned (sameScope k r)) :=
    Env.assign_of_unbound rfl hr
  have hmatch : Pattern.matchGoal [.keyword (.named "same"), .var (.named "x"), .var (.named "x")]
      [.keyword (.named "same"), r.toTerm, r'.toTerm] k = .ok (o.after (sameScope k r)) := by
    rw [Pattern.matchGoal_of_length_eq (by rfl), Pattern.matchTerms_keyword]
    simp only [Pattern.matchTerms, Term.matchGoal_var, hassign, ho, Outcome.after]
    cases o <;> rfl
  rw [Selector.applications, select_arithmetic hprogram (by simp)]
  change Search.bind (ofList (Program.select [.fact _] _ k)) _ = _
  simp only [Program.select, Rule.matchGoal, Rule.fact, hmatch]
  cases o.after (sameScope k r) with
  | none => rfl
  | some k₁ => exact append_done _

/-- Two integers are the same if they are equal, and nothing is learned. -/
theorem applications_same_integers (hprogram : Reckons object program)
    (hr : k.Reads r m) (hr' : k.Reads r' n) (depth : Nat) :
    Selector.applications program.select (depth + 1)
      [.keyword (.named "same"), r.toTerm, r'.toTerm] k =
      if m = n then one (.ok k) else done := by
  have hassign := (hr.of_knowsAs knowsAs_sameScope).assign_eq (hr'.of_knowsAs knowsAs_sameScope)
    (referent?_sameScope (k := k) (r := r))
  rw [applications_same hprogram hr.within hassign]
  by_cases hmn : m = n
  · simp [hmn, Outcome.after, knowsAs_sameScope.restore_self]
  · simp [hmn, Outcome.after]

/-- Two things are the same once, if the assignment teaches something of an outer variable. -/
theorem applications_same_learned (hprogram : Reckons object program)
    (hr : r.Within (fun _ => True) k) {u : Variable} {s : Status} (hu : k.declares u = true)
    (ho : (sameScope k r).assign (.named "x") r'.toTerm =
      .ok (.learned ((sameScope k r).setStatus u s))) (depth : Nat) :
    Selector.applications program.select (depth + 1)
      [.keyword (.named "same"), r.toTerm, r'.toTerm] k = one (.ok (k.setStatus u s)) := by
  refine (applications_same hprogram hr ho depth).trans ?_
  simp only [Outcome.after, knowsAs_sameScope.restore_setStatus hu]

/-- A variable without a value gets linked to a variable with a constant. -/
theorem applications_same_linked (hprogram : Reckons object program) {x u w last : Variable}
    {c : Constant} (hx : Env.Ends k.statuses x ⟨u, none⟩)
    (hw : Env.Ends k.statuses w ⟨last, some c⟩) (depth : Nat) :
    Selector.applications program.select (depth + 1)
      [.keyword (.named "same"), .var x, .var w] k =
      one (.ok (k.setStatus u (.linked last))) := by
  have hwithin : (Referent.var x).Within (fun _ => True) k := hx.contains
  have hassign : (sameScope k (.var x)).assign (.named "x") (Referent.var w).toTerm =
      .ok (.learned ((sameScope k (.var x)).setStatus u (.linked last))) :=
    Env.Ends.assign_var hx hw referent?_sameScope
  exact applications_same_learned hprogram hwithin hx.ends_last.contains hassign depth

/-- A variable without a value is the same as an integer once, and gets that value. -/
theorem exists_applications_same (hprogram : Reckons object program) {x u : Variable}
    (hx : Env.Ends k.statuses x ⟨u, none⟩) (hr' : k.Reads r' n) :
    ∃ s, (k.setStatus u s).valueOf x = .ok (some (.value (.int n))) ∧ ∀ depth,
      Selector.applications program.select (depth + 1)
        [.keyword (.named "same"), .var x, r'.toTerm] k = one (.ok (k.setStatus u s)) := by
  obtain ⟨s, hassign, hvalue⟩ :=
    (hr'.of_knowsAs knowsAs_sameScope).assign_unresolved referent?_sameScope hx
  have hwithin : (Referent.var x).Within (fun _ => True) k := hx.contains
  exact ⟨s, hvalue, applications_same_learned hprogram hwithin hx.ends_last.contains hassign⟩

end

end Sample
end Deduction
