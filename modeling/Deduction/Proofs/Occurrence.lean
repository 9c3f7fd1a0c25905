import Deduction.Rule

/-!
# Occurrences

Properties of all terms that occur in an expression, a goal or a program, at any
depth of nesting. Which constants occur and which variables occur are two of them.
-/

namespace Deduction

/-- If the term is a constant, it belongs to the given set. -/
def Term.Over (U : Constant → Prop) (t : Term) : Prop := ∀ c, t = .const c → U c

/-- If the term is a variable, it has the given property. -/
def Term.Vars (P : Variable → Prop) (t : Term) : Prop := ∀ v, t = .var v → P v

/-- All terms of a pattern have the property. -/
def Pattern.Each (P : Term → Prop) (g : Pattern) : Prop := ∀ t ∈ g, P t

namespace Expr

mutual

/-- All terms of an expression have the property. -/
def Each (P : Term → Prop) : Expr → Prop
  | term t => P t
  | phrase es => EachOf P es

/-- All terms of the listed expressions have the property. -/
def EachOf (P : Term → Prop) : List Expr → Prop
  | [] => True
  | e :: es => e.Each P ∧ EachOf P es

end

mutual

/-- What is true of every term is true throughout an expression. -/
theorem each_of_forall {P : Term → Prop} (hP : ∀ t, P t) : ∀ e : Expr, e.Each P
  | term t => hP t
  | phrase es => by
    rw [Each]
    exact eachOf_of_forall hP es

/-- What is true of every term is true throughout listed expressions. -/
theorem eachOf_of_forall {P : Term → Prop} (hP : ∀ t, P t) : ∀ es : List Expr, EachOf P es
  | [] => trivial
  | e :: es => ⟨each_of_forall hP e, eachOf_of_forall hP es⟩

end

mutual

/-- A weaker property of terms holds throughout an expression, too. -/
theorem Each.mono {P Q : Term → Prop} (hPQ : ∀ t, P t → Q t) :
    ∀ {e : Expr}, e.Each P → e.Each Q
  | term t, h => hPQ t h
  | phrase _, h => EachOf.mono hPQ (by simpa only [Each] using h)

/-- A weaker property of terms holds throughout listed expressions, too. -/
theorem EachOf.mono {P Q : Term → Prop} (hPQ : ∀ t, P t → Q t) :
    ∀ {es : List Expr}, EachOf P es → EachOf Q es
  | [], _ => trivial
  | _ :: _, h => ⟨Each.mono hPQ h.1, EachOf.mono hPQ h.2⟩

end

end Expr

/-- All terms of a goal have the property; what a host goal does is not looked into. -/
def Goal.Each (P : Term → Prop) : Goal → Prop
  | truth | falsity | host _ => True
  | and p q | or p q => p.Each P ∧ q.Each P
  | not p => p.Each P
  | apply g => Pattern.Each P g
  | call es => Expr.EachOf P es

/-- All host goals of a goal have the property. -/
def Goal.Hosts (P : Host → Prop) : Goal → Prop
  | truth | falsity | apply _ | call _ => True
  | and p q | or p q => p.Hosts P ∧ q.Hosts P
  | not p => p.Hosts P
  | host h => P h

/-- A weaker property of terms holds throughout a goal, too. -/
theorem Goal.Each.mono {P Q : Term → Prop} (hPQ : ∀ t, P t → Q t) {p : Goal} (h : p.Each P) :
    p.Each Q := by
  induction p with
  | truth => trivial
  | falsity => trivial
  | and p q ihp ihq => exact ⟨ihp h.1, ihq h.2⟩
  | or p q ihp ihq => exact ⟨ihp h.1, ihq h.2⟩
  | not p ih => exact ih h
  | apply g => exact fun t ht => hPQ t (h t ht)
  | call es => exact Expr.EachOf.mono hPQ h
  | host h => trivial

/-- What is true of every term is true throughout a goal. -/
theorem Goal.each_of_forall {P : Term → Prop} (hP : ∀ t, P t) (p : Goal) : p.Each P := by
  induction p with
  | truth => trivial
  | falsity => trivial
  | and p q ihp ihq => exact ⟨ihp, ihq⟩
  | or p q ihp ihq => exact ⟨ihp, ihq⟩
  | not p ih => exact ih
  | apply g => exact fun t _ => hP t
  | call es => exact Expr.eachOf_of_forall hP es
  | host h => trivial

/-- A weaker property of host goals holds throughout a goal, too. -/
theorem Goal.Hosts.mono {P Q : Host → Prop} (hPQ : ∀ h, P h → Q h) {p : Goal}
    (h : p.Hosts P) : p.Hosts Q := by
  induction p with
  | truth => trivial
  | falsity => trivial
  | and p q ihp ihq => exact ⟨ihp h.1, ihq h.2⟩
  | or p q ihp ihq => exact ⟨ihp h.1, ihq h.2⟩
  | not p ih => exact ih h
  | apply g => trivial
  | call es => trivial
  | host g => exact hPQ g h

/-- No part of a goal asks a host. -/
def Goal.HostFree (p : Goal) : Prop := p.Hosts fun _ => False

/-- A goal that asks no host has every property of host goals. -/
theorem Goal.HostFree.hosts {p : Goal} (h : p.HostFree) (P : Host → Prop) : p.Hosts P :=
  h.mono fun _ hfalse => hfalse.elim

/-- No part of a goal is a negation. -/
def Goal.Affirmative : Goal → Prop
  | truth | falsity | apply _ | call _ | host _ => True
  | and p q | or p q => p.Affirmative ∧ q.Affirmative
  | not _ => False

/-- All terms of all rules have the property. -/
def Program.Each (P : Term → Prop) (program : Program) : Prop :=
  ∀ r ∈ program, Pattern.Each P r.condition ∧ r.body.Each P

/-- What is true of every term is true throughout a program. -/
theorem Program.each_of_forall {P : Term → Prop} (hP : ∀ t, P t) (program : Program) :
    program.Each P := fun r _ => ⟨fun t _ => hP t, r.body.each_of_forall hP⟩

/-- All host goals of all rules have the property. -/
def Program.Hosts (P : Host → Prop) (program : Program) : Prop := ∀ r ∈ program, r.body.Hosts P

/-- No rule has a negation in its body. -/
def Program.Affirmative (program : Program) : Prop := ∀ r ∈ program, r.body.Affirmative

/-- No rule asks a host. -/
def Program.HostFree (program : Program) : Prop := program.Hosts fun _ => False

/-- A program that asks no host has every property of host goals. -/
theorem Program.HostFree.hosts {program : Program} (h : program.HostFree) (P : Host → Prop) :
    program.Hosts P := fun r hr => Goal.HostFree.hosts (h r hr) P

end Deduction
