import Deduction.Host

/-!
# Goals

A goal is built from applications of rules, calls of phrases and host goals by
conjunction, disjunction and negation as failure. Beside the constructors there
are combinators that leave out the parts which cannot matter.
-/

namespace Deduction

/-- Something to be solved in an environment. -/
inductive Goal where
  /-- Holds once, without learning anything. -/
  | truth
  /-- Never holds. -/
  | falsity
  /-- The second goal under every solution of the first. -/
  | and (first second : Goal)
  /-- The solutions of both goals, interleaved. -/
  | or (left right : Goal)
  /-- Holds when the goal has no solution. -/
  | not (goal : Goal)
  /-- The bodies of all rules whose condition matches. -/
  | apply (pattern : Pattern)
  /-- The phrase is flattened in the current environment and then applied. -/
  | call (phrase : List Expr)
  /-- Answered by the host. -/
  | host (goal : Host)

namespace Goal

/-- Conjunction that leaves out truths and stops at a leading falsity. -/
def conj : Goal → Goal → Goal
  | truth, q => q
  | p, truth => p
  | falsity, _ => falsity
  | p, q => and p q

/-- Disjunction that leaves out falsities. -/
def disj : Goal → Goal → Goal
  | falsity, q => q
  | p, falsity => p
  | p, q => or p q

/-- Negation that turns truth and falsity into one another. -/
def neg : Goal → Goal
  | truth => falsity
  | falsity => truth
  | p => not p

/-- The conjunction of all listed goals, in order. -/
def all (ps : List Goal) : Goal := ps.foldl conj truth

/-- The disjunction of all listed goals. -/
def any (ps : List Goal) : Goal := ps.foldl disj falsity

/-- Whether a goal is the truth itself. -/
def isTruth : Goal → Bool
  | truth => true
  | _ => false

/-- Equality of goals in which a failing payload comparison counts as unequal. -/
def same : Goal → Goal → Bool
  | truth, truth | falsity, falsity => true
  | and p q, and p' q' | or p q, or p' q' => p.same p' && q.same q'
  | not p, not p' => p.same p'
  | apply g, apply g' => Pattern.same g g'
  | call es, call es' => Expr.sameAll es es'
  | host h, host h' => h.same h'
  | _, _ => false

/-- A goal as it is written. -/
def render : Goal → String
  | truth => "."
  | falsity => "\\+."
  | and p q => p.render ++ ", " ++ q.render
  | or p q => p.render ++ "; " ++ q.render
  | not p => "\\+ " ++ p.render
  | apply g => Pattern.render g
  | call es => (Expr.phrase es).render
  | host h => h.name

end Goal

end Deduction
