import Deduction.Proofs.Pulling
import Deduction.Resolution

/-!
# Answers

A derivation of one item of a search, without depth, forks and notes: which rule was
applied, which side of a disjunction was taken, and where a fault arose. Everything
that a search emits has such a derivation, so what holds of every answer is proved by
induction on the derivation. The derivations say more than a search shows in one
place: a negation may always hold, whether or not its goal has a solution.
-/

namespace Deduction

namespace Program

/-- A goal can be solved in an environment, which leads to another one. -/
inductive Solves (program : Program) : Goal → Env → Env → Prop
  | truth {k : Env} : Solves program .truth k k
  | and {p q : Goal} {k k₁ k₂ : Env} (hp : Solves program p k k₁) (hq : Solves program q k₁ k₂) :
      Solves program (.and p q) k k₂
  | orLeft {p q : Goal} {k k' : Env} (hp : Solves program p k k') : Solves program (.or p q) k k'
  | orRight {p q : Goal} {k k' : Env} (hq : Solves program q k k') : Solves program (.or p q) k k'
  | not {p : Goal} {k : Env} : Solves program (.not p) k k
  | apply {g : Pattern} {r : Rule} {k k₁ k₂ k' : Env} (hr : r ∈ program)
      (hm : Pattern.matchGoal r.condition g k = .ok (some k₁)) (hb : Solves program r.body k₁ k₂)
      (hk : k₂.restore k = .ok k') : Solves program (.apply g) k k'
  | call {es : List Expr} {k k' : Env} {x : FlatPhrase} (hx : Expr.flattenPhrase es k = .ok x)
      (hg : Solves program (.and x.prelude.toGoal (.apply x.terms)) x.env k') :
      Solves program (.call es) k k'
  | host {h : Host} {k k' : Env} {n : Nat} {t : Turn} (ht : h.turn k n = some t)
      (ho : t.outcome = .ok (some k')) : Solves program (.host h) k k'

/-- Solving a goal in an environment can meet a fault. -/
inductive Faults (program : Program) : Goal → Env → Fault → Prop
  | andFirst {p q : Goal} {k : Env} {f : Fault} (hp : Faults program p k f) :
      Faults program (.and p q) k f
  | andSecond {p q : Goal} {k k₁ : Env} {f : Fault} (hp : Solves program p k k₁)
      (hq : Faults program q k₁ f) : Faults program (.and p q) k f
  | orLeft {p q : Goal} {k : Env} {f : Fault} (hp : Faults program p k f) :
      Faults program (.or p q) k f
  | orRight {p q : Goal} {k : Env} {f : Fault} (hq : Faults program q k f) :
      Faults program (.or p q) k f
  | not {p : Goal} {k : Env} {f : Fault} (hp : Faults program p k f) : Faults program (.not p) k f
  | matching {g : Pattern} {r : Rule} {k : Env} {f : Fault} (hr : r ∈ program)
      (hm : Pattern.matchGoal r.condition g k = .error f) : Faults program (.apply g) k f
  | body {g : Pattern} {r : Rule} {k k₁ : Env} {f : Fault} (hr : r ∈ program)
      (hm : Pattern.matchGoal r.condition g k = .ok (some k₁)) (hb : Faults program r.body k₁ f) :
      Faults program (.apply g) k f
  | restoring {g : Pattern} {r : Rule} {k k₁ k₂ : Env} {f : Fault} (hr : r ∈ program)
      (hm : Pattern.matchGoal r.condition g k = .ok (some k₁)) (hb : Solves program r.body k₁ k₂)
      (hk : k₂.restore k = .error f) : Faults program (.apply g) k f
  | flattening {es : List Expr} {k : Env} {f : Fault} (hx : Expr.flattenPhrase es k = .error f) :
      Faults program (.call es) k f
  | call {es : List Expr} {k : Env} {x : FlatPhrase} {f : Fault}
      (hx : Expr.flattenPhrase es k = .ok x)
      (hg : Faults program (.and x.prelude.toGoal (.apply x.terms)) x.env f) :
      Faults program (.call es) k f
  | host {h : Host} {k : Env} {n : Nat} {t : Turn} {f : Fault} (ht : h.turn k n = some t)
      (ho : t.outcome = .error f) : Faults program (.host h) k f

/-- An item is derived as a solution or as a fault. -/
def Answers (program : Program) (p : Goal) (k : Env) : Item → Prop
  | .ok k' => program.Solves p k k'
  | .error f => program.Faults p k f

/-! ## Selection -/

/-- Bodies have no say in the selection of rules. -/
theorem select_mapBody (f : Goal → Goal) (program : Program) (g : Pattern) (k : Env) :
    select (program.map fun r => { r with body := f r.body }) g k =
      (program.select g k).map
        (Except.map fun m => { m with rule := { m.rule with body := f m.rule.body } }) := by
  induction program with
  | nil => rfl
  | cons r rs ih =>
    simp only [List.map_cons, select, ih, Rule.matchGoal]
    cases Pattern.matchGoal r.condition g k with
    | error e => rfl
    | ok o => cases o <;> rfl

/-- Rules that do not match are passed over. -/
theorem select_append_of_none {program : Program} {g : Pattern} {k : Env} (rules : Program)
    (h : ∀ r ∈ program, Pattern.matchGoal r.condition g k = .ok none) :
    select (program ++ rules) g k = select rules g k := by
  induction program with
  | nil => rfl
  | cons r rs ih =>
    have hr : r.matchGoal g k = .ok none := by
      rw [Rule.matchGoal, h r List.mem_cons_self]
    rw [List.cons_append, select, hr]
    exact ih fun r' hr' => h r' (List.mem_cons_of_mem r hr')

/-- A selected match is the match of one of the rules. -/
theorem matchGoal_of_mem_select {program : Program} {g : Pattern} {k : Env} {m : Match}
    (h : .ok m ∈ program.select g k) :
    m.rule ∈ program ∧ Pattern.matchGoal m.rule.condition g k = .ok (some m.env) := by
  induction program with
  | nil => simp [select] at h
  | cons r rs ih =>
    rw [select, Rule.matchGoal] at h
    cases hr : Pattern.matchGoal r.condition g k with
    | error f => simp [hr] at h
    | ok o =>
      cases o with
      | none =>
        obtain ⟨hmem, hmatch⟩ := ih (by simpa [hr] using h)
        exact ⟨List.mem_cons_of_mem r hmem, hmatch⟩
      | some k' =>
        simp only [hr, List.mem_cons, Except.ok.injEq] at h
        rcases h with rfl | h
        · exact ⟨List.mem_cons_self, hr⟩
        · obtain ⟨hmem, hmatch⟩ := ih h
          exact ⟨List.mem_cons_of_mem r hmem, hmatch⟩

/-- A fault of the selection is met at one of the rules. -/
theorem fault_of_mem_select {program : Program} {g : Pattern} {k : Env} {f : Fault}
    (h : .error f ∈ program.select g k) :
    ∃ r ∈ program, Pattern.matchGoal r.condition g k = .error f := by
  induction program with
  | nil => simp [select] at h
  | cons r rs ih =>
    rw [select, Rule.matchGoal] at h
    cases hr : Pattern.matchGoal r.condition g k with
    | error f' =>
      have heq : f = f' := by simpa [hr] using h
      exact ⟨r, List.mem_cons_self, heq ▸ hr⟩
    | ok o =>
      have hrest : .error f ∈ select rs g k := by cases o <;> simpa [hr] using h
      obtain ⟨r', hmem, hmatch⟩ := ih hrest
      exact ⟨r', List.mem_cons_of_mem r hmem, hmatch⟩

end Program

namespace Search

/-- One search under the only solution of another. -/
theorem one_under (k : Env) (f : Env → Search Item) : (one (.ok k)).under f = f k := bind_one _ _

/-- Nothing is run under a search that is handed on as it is. -/
theorem under_one (s : Search Item) : (s.under fun k => one (.ok k)) = s := by
  induction s with
  | done => rfl
  | cut => rfl
  | item i rest ih =>
    cases i with
    | ok k => exact congrArg (item (.ok k)) (funext fun _ => ih ())
    | error e => exact congrArg (item (.error e)) (funext fun _ => ih ())
  | note text rest ih => exact congrArg (note text) (funext fun _ => ih ())
  | fork l r ihl ihr => exact congrArg₂ fork (funext fun _ => ihl ()) (funext fun _ => ihr ())

/-- Searches that are run under one another may be joined either way. -/
theorem under_assoc (s : Search Item) (f g : Env → Search Item) :
    (s.under f).under g = s.under fun k => (f k).under g := by
  rw [Search.under, Search.under, Search.under, bind_assoc]
  congr 1
  funext i
  cases i with
  | ok k => rfl
  | error e => exact bind_one _ _

/-- Under a search there are the items of the second one, and the faults of the first. -/
theorem emits_under {s : Search Item} {f : Env → Search Item} {i : Item}
    (h : Emits (s.under f) i) :
    (∃ k, Emits s (.ok k) ∧ Emits (f k) i) ∨ ∃ e, i = .error e ∧ Emits s (.error e) := by
  obtain ⟨a, ha, hi⟩ := emits_bind h
  cases a with
  | ok k => exact Or.inl ⟨k, ha, hi⟩
  | error e => exact Or.inr ⟨e, emits_one_iff.mp hi, ha⟩

/-- A negation hands back its environment or the fault that it met. -/
theorem emits_absent {s : Search Item} {k : Env} {i : Item} (h : Emits (s.absent k) i) :
    i = .ok k ∨ ∃ f, i = .error f ∧ Emits s (.error f) := by
  induction s with
  | done => exact Or.inl (emits_one_iff.mp h)
  | cut => cases h
  | item a rest _ =>
    cases a with
    | ok _ => cases h
    | error f => exact Or.inr ⟨f, emits_one_iff.mp h, .here⟩
  | note n rest ih =>
    cases h with
    | note h => exact (ih () h).imp_right fun ⟨f, hi, hf⟩ => ⟨f, hi, .note hf⟩
  | fork l r ihl ihr =>
    cases h with
    | left h => exact (ihl () h).imp_right fun ⟨f, hi, hf⟩ => ⟨f, hi, .left hf⟩
    | right h => exact (ihr () h).imp_right fun ⟨f, hi, hf⟩ => ⟨f, hi, .right hf⟩

end Search

open Search

/-- A host goal answers with the outcomes of its turns. -/
theorem Host.emits_turnsFrom {turn : Nat → Option Turn} {bound n : Nat} {i : Item}
    (h : Emits (turnsFrom turn bound n) i) :
    ∃ n t, turn n = some t ∧ t.outcome = i.map some := by
  induction bound generalizing n with
  | zero => cases h
  | succ bound ih =>
    rw [turnsFrom] at h
    split at h
    · cases h
    · rename_i t ht
      rw [emits_noted_iff] at h
      split at h
      · exact ih h
      · rename_i k hk
        cases h with
        | here => exact ⟨n, t, ht, hk⟩
        | later h => exact ih h
      · rename_i f hf
        cases h with
        | here => exact ⟨n, t, ht, hf⟩
        | later h => exact ih h

namespace Program

variable {program : Program} {applied : Pattern → Env → Search Item}

private theorem answers_and {p q : Goal} {k : Env} {s : Search Item} {f : Env → Search Item}
    {i : Item} (hs : ∀ {i}, Emits s i → program.Answers p k i)
    (hf : ∀ {k' i}, Emits (f k') i → program.Answers q k' i) (h : Emits (s.under f) i) :
    program.Answers (.and p q) k i := by
  rcases emits_under h with ⟨k', hk', hi⟩ | ⟨e, rfl, he⟩
  · have hp : program.Solves p k k' := hs hk'
    have hq := hf hi
    cases i with
    | ok k'' => exact .and hp hq
    | error e => exact .andSecond hp hq
  · exact .andFirst (hs he)

/-- Exploring a prelude answers the goal it stands for. -/
private theorem answers_of_emits_prelude
    (happlied : ∀ {g k i}, Emits (applied g k) i → program.Answers (.apply g) k i)
    {prelude : Prelude} {k : Env} {i : Item} (h : Emits (prelude.explore applied k) i) :
    program.Answers prelude.toGoal k i := by
  induction prelude generalizing k i with
  | empty =>
    rw [emits_one_iff.mp h]
    exact Solves.truth
  | define t es => exact happlied h
  | both p q ihp ihq => exact answers_and ihp ihq h

/-- Exploring a goal answers it, if the given applications answer theirs. -/
private theorem answers_of_emits_explore
    (happlied : ∀ {g k i}, Emits (applied g k) i → program.Answers (.apply g) k i)
    {turns : Nat} {p : Goal} {k : Env} {i : Item} (h : Emits (p.explore applied turns k) i) :
    program.Answers p k i := by
  induction p generalizing k i with
  | truth =>
    rw [emits_one_iff.mp h]
    exact Solves.truth
  | falsity => cases h
  | and p q ihp ihq =>
    exact answers_and (fun h => ihp (emits_noted_iff.mp h)) (fun h => ihq (emits_noted_iff.mp h)) h
  | or p q ihp ihq =>
    rcases emits_merge h with h | h
    · have := ihp h
      cases i with
      | ok k' => exact Solves.orLeft this
      | error f => exact Faults.orLeft this
    · have := ihq h
      cases i with
      | ok k' => exact Solves.orRight this
      | error f => exact Faults.orRight this
  | not p ih =>
    rcases emits_absent h with rfl | ⟨f, rfl, hf⟩
    · exact Solves.not
    · exact Faults.not (ih (emits_noted_iff.mp hf))
  | apply g => exact happlied h
  | call es =>
    rw [Goal.explore] at h
    split at h
    · rename_i f hf
      rw [emits_one_iff.mp h]
      exact Faults.flattening hf
    · rename_i x hx
      have hand := answers_and (answers_of_emits_prelude happlied) happlied h
      cases i with
      | ok k' => exact Solves.call hx hand
      | error f => exact Faults.call hx hand
  | host g =>
    obtain ⟨n, t, ht, ho⟩ := Host.emits_turnsFrom h
    cases i with
    | ok k' => exact Solves.host ht ho
    | error f => exact Faults.host ht ho

/-- At every depth, what the applications of a program emit answers the applied pattern. -/
theorem answers_of_emits_applications {depth : Nat} {g : Pattern} {k : Env} {i : Item}
    (h : Emits (Selector.applications program.select depth g k) i) :
    program.Answers (.apply g) k i := by
  induction depth generalizing g k i with
  | zero => cases h
  | succ depth ih =>
    obtain ⟨a, ha, hi⟩ := emits_bind h
    have hmem := mem_of_emits_ofList ha
    cases a with
    | error f =>
      obtain ⟨r, hr, hm⟩ := fault_of_mem_select hmem
      rw [emits_one_iff.mp hi]
      exact Faults.matching hr hm
    | ok m =>
      obtain ⟨hr, hm⟩ := matchGoal_of_mem_select hmem
      obtain ⟨j, hj, rfl⟩ := emits_map hi
      have hbody := answers_of_emits_explore (fun h => ih h) (emits_noted_iff.mp hj)
      cases j with
      | error f => exact Faults.body hr hm hbody
      | ok k₂ =>
        show program.Answers (.apply g) k (k₂.restore k)
        cases hk : k₂.restore k with
        | ok k' => exact Solves.apply hr hm hbody hk
        | error f => exact Faults.restoring hr hm hbody hk

/-- At every depth, what the exploration of a goal emits answers the goal. -/
theorem answers_of_emits {depth turns : Nat} {p : Goal} {k : Env} {i : Item}
    (h : Emits (p.explore (Selector.applications program.select depth) turns k) i) :
    program.Answers p k i :=
  answers_of_emits_explore (fun h => answers_of_emits_applications h) h

/-- However a goal is pulled, each item that comes out of it has a derivation. -/
theorem answers_of_mem_solve {depth limit : Nat} {choice : Nat → Bool} {p : Goal} {k : Env}
    {i : Item} (h : i ∈ (p.solve program.select depth limit choice k).items) :
    program.Answers p k i :=
  answers_of_emits (emits_of_mem_take h)

end Program

end Deduction
