import Deduction.Proofs.Blame
import Deduction.Proofs.Consequence
import Deduction.Sample.Family

/-!
# Definite goals

In a pure program the bodies of the rules combine calls by conjunction and disjunction
and name their variables. What such a body is turned into during a search is definite: it
has patterns with declared variables, and calls that are made in the scope of a rule.
Their meaning depends on the declared variables and the rule's own variables only.
-/

namespace Deduction

/-- Built from truth, falsity and calls by conjunction and disjunction. -/
def Goal.IsPure : Goal → Prop
  | truth | falsity | call _ => True
  | and p q | or p q => p.IsPure ∧ q.IsPure
  | not _ | apply _ | host _ => False

/-- All bodies are pure, and all variables of the rules are written by name. -/
structure Program.IsPure (program : Program) : Prop where
  bodies : ∀ r ∈ program, r.body.IsPure
  named : program.Each (Term.Vars fun v => ¬ v.IsIssued)

/-- A goal of a pure program as it is met in an environment. -/
def Goal.Definite (k : Env) : Goal → Prop
  | truth | falsity => True
  | and p q | or p q => p.Definite k ∧ q.Definite k
  | apply g => Pattern.Each (Term.Within Constant.IsStable k) g
  | call es => k.scope = .rule ∧ Expr.EachOf (Term.Over Constant.IsStable) es ∧
      Expr.EachOf (Term.Vars fun v => ¬ v.IsIssued) es
  | not _ | host _ => False

namespace Goal

variable {D : Set Tuple} {s s' own : Valuation} {k k' : Env} {p : Goal}

/-- A pure body is made of calls. -/
theorem IsPure.callsOnly (h : p.IsPure) : p.CallsOnly := by
  induction p with
  | truth => trivial
  | falsity => trivial
  | and p q ihp ihq => exact ⟨ihp h.1, ihq h.2⟩
  | or p q ihp ihq => exact ⟨ihp h.1, ihq h.2⟩
  | not p _ => exact h.elim
  | apply g => exact h
  | call es => trivial
  | host g => exact h

/-- The body of a rule is definite in the scope of the rule. -/
theorem IsPure.definite (h : p.IsPure) (hs : k.scope = .rule)
    (hstable : p.Each (Term.Over Constant.IsStable))
    (hnamed : p.Each (Term.Vars fun v => ¬ v.IsIssued)) : p.Definite k := by
  induction p with
  | truth => trivial
  | falsity => trivial
  | and p q ihp ihq => exact ⟨ihp h.1 hstable.1 hnamed.1, ihq h.2 hstable.2 hnamed.2⟩
  | or p q ihp ihq => exact ⟨ihp h.1 hstable.1 hnamed.1, ihq h.2 hstable.2 hnamed.2⟩
  | not p _ => exact h.elim
  | apply g => exact h.elim
  | call es => exact ⟨hs, hstable, hnamed⟩
  | host g => exact h

/-- The meaning of a body depends on the rule's own variables only. -/
theorem IsPure.holds_congr (h : p.IsPure) (hp : p.Holds D s own) : p.Holds D s' own := by
  induction p with
  | truth => trivial
  | falsity => exact hp.elim
  | and p q ihp ihq => exact ⟨ihp h.1 hp.1, ihq h.2 hp.2⟩
  | or p q ihp ihq => exact hp.imp (ihp h.1) (ihq h.2)
  | not p _ => exact hp.elim
  | apply g => exact h.elim
  | call es => exact hp
  | host g => exact hp.elim

/-- A goal stays definite when its environment is continued. -/
theorem Definite.mono (h : p.Definite k) (hk : k.Continues k') : p.Definite k' := by
  induction p with
  | truth => trivial
  | falsity => trivial
  | and p q ihp ihq => exact ⟨ihp h.1, ihq h.2⟩
  | or p q ihp ihq => exact ⟨ihp h.1, ihq h.2⟩
  | not p _ => exact h.elim
  | apply g => exact fun t ht => (h t ht).mono hk.toExtends
  | call es => exact ⟨hk.scope.trans h.1, h.2⟩
  | host g => exact h

/-- A definite goal is ready to be solved. -/
theorem Definite.ready (h : p.Definite k) : p.Ready Constant.IsStable k := by
  induction p with
  | truth => trivial
  | falsity => trivial
  | and p q ihp ihq => exact ⟨ihp h.1, ihq h.2⟩
  | or p q ihp ihq => exact ⟨ihp h.1, ihq h.2⟩
  | not p _ => exact h.elim
  | apply g => exact h
  | call es => exact ⟨h.2.1, fun hs => by rw [h.1] at hs; cases hs⟩
  | host g => exact h

/-- Whether a definite goal holds depends on the declared variables only. -/
theorem Holds.of_agree (hp : p.Holds D s own) (h : p.Definite k) (hs : k.Agree s s') :
    p.Holds D s' own := by
  induction p with
  | truth => trivial
  | falsity => exact hp.elim
  | and p q ihp ihq => exact ⟨ihp hp.1 h.1, ihq hp.2 h.2⟩
  | or p q ihp ihq => exact hp.imp (ihp · h.1) (ihq · h.2)
  | not p _ => exact hp.elim
  | apply g =>
    obtain ⟨ws, hg, hws⟩ := hp
    exact ⟨ws, hg.of_agree h hs, hws⟩
  | call es => exact hp
  | host g => exact hp.elim

end Goal

/-- The bodies of a pure program are made of calls. -/
theorem Program.IsPure.callsOnly {program : Program} (h : program.IsPure) : program.CallsOnly :=
  fun r hr => (h.bodies r hr).callsOnly

/-- A prelude whose variables are declared is definite as a goal. -/
theorem Prelude.definite_toGoal {k : Env} {p : Prelude}
    (h : p.Each (Term.Within Constant.IsStable k)) : p.toGoal.Definite k := by
  induction p with
  | empty => trivial
  | define t es => exact each_definedBy (Term.within_keyword _) h
  | both p q ihp ihq => exact ⟨ihp h.1, ihq h.2⟩

section

variable {program : Program} {p : Goal} {k k' : Env}

/-- A solution of a definite goal is well formed, knows stable constants only, and continues
the environment of the goal. -/
theorem Program.Solves.of_definite (h : program.Solves p k k') (hpure : program.IsPure)
    (hstable : program.Each (Term.Over Constant.IsStable)) (hp : p.Definite k)
    (hk : k.WellFormed) (hU : k.Over Constant.IsStable) :
    k'.WellFormed ∧ k'.Over Constant.IsStable ∧ k.Continues k' :=
  h.of_ready hpure.callsOnly hstable hp.ready hk hU

/-- A match for a definite pattern makes the body of its rule definite. -/
theorem Program.IsPure.match_wellFormed (hpure : program.IsPure)
    (hstable : program.Each (Term.Over Constant.IsStable)) {r : Rule} (hr : r ∈ program)
    {g : Pattern} (hg : Pattern.Each (Term.Over Constant.IsStable) g)
    (hm : Pattern.matchGoal r.condition g k = .ok (some k')) (hk : k.WellFormed)
    (hU : k.Over Constant.IsStable) :
    k'.WellFormed ∧ k'.Over Constant.IsStable ∧ k.Extends k' ∧ r.body.Definite k' := by
  obtain ⟨hk', hextends, hscope⟩ := Pattern.matchGoal_wellFormed hm hk
  exact ⟨hk', Pattern.over_of_matchGoal hU (hstable r hr).1 hg hm, hextends,
    (hpure.bodies r hr).definite hscope (hstable r hr).2 (hpure.named r hr).2⟩

end

namespace Sample

/-- The program combines calls and facts only. -/
theorem isPure_fathers : fathers.IsPure := by
  constructor
  · simp [fathers, fatherFact, grandfatherRule, Rule.fact, Goal.IsPure]
  · simp [fathers, fatherFact, grandfatherRule, grandfatherOf, written, atom, Rule.fact,
      Program.Each, Pattern.Each, Goal.Each, Expr.EachOf, Expr.Each, Term.Vars, Variable.IsIssued,
      Variable.id?]

/-- All its constants are atoms. -/
theorem stable_fathers : fathers.Each (Term.Over Constant.IsStable) := by
  simp [fathers, fatherFact, grandfatherRule, grandfatherOf, written, atom, Rule.fact,
    Program.Each, Pattern.Each, Goal.Each, Expr.EachOf, Expr.Each, Term.Over, Constant.IsStable]

/-- Asks for a grandfather of anybody. -/
def anyGrandfather : Pattern := grandfatherOf (.var (.named "who")) .hole

/-- The goal asks about a variable of the query. -/
theorem anyGrandfather_within :
    Pattern.Each (Term.Within Constant.IsStable (.declaring (["who"].map .named)))
      anyGrandfather := by
  simp [anyGrandfather, grandfatherOf, Pattern.Each, Term.within_keyword, Term.within_hole,
    Term.within_var, Env.declares_iff, Env.declaring, VarMap.get?_constant]

end Sample

end Deduction
