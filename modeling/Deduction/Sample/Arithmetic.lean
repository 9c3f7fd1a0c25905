import Deduction.Env.Learning
import Deduction.Host.Integer
import Deduction.Rule

/-!
# Arithmetic

Definitions that compute an integer from integer operands, a fact that equates its
two operands, and the endless program of the natural numbers.
-/

namespace Deduction.Sample

/-- The variable that a definition computes. -/
def result : Variable := .named "result"

/-- Binds the result of a definition to a computed integer. -/
def bindResult (k : Env) (n : Except Fault Int64) : Turn where
  notes := []
  outcome :=
    match n with
    | .error f => .error f
    | .ok n => (k.assign result (Term.int n)).map fun outcome => outcome.after k

/-- Defines the result by a function of one integer. -/
def unary (object : Nat) (name : String) (f : Int64 → Int64) : Rule where
  condition := result.definedBy [.const (.atom name), .var (.named "a")]
  body := .host (.once name object fun k =>
    bindResult k ((k.operand name (.named "a")).map f))

/-- Defines the result by a function of two integers, of which the first is read first. -/
def binary (object : Nat) (name : String) (f : Int64 → Int64 → Int64) : Rule where
  condition := result.definedBy [.const (.atom name), .var (.named "a"), .var (.named "b")]
  body := .host (.once name object fun k =>
    bindResult k
      (match k.operand name (.named "a") with
      | .error e => .error e
      | .ok a => (k.operand name (.named "b")).map (f a)))

/-- Sum, negative and successor, and that everything is the same as itself. -/
def arithmetic (object : Nat) : Program := [
  binary object "add" fun a b => a + b,
  unary object "neg" fun a => -a,
  unary object "succ" fun a => a + 1,
  .fact [.keyword (.named "same"), .var (.named "x"), .var (.named "x")]]

/-- Zero is a natural number, and so is the successor of a natural number. -/
def naturals (object : Nat) : Program := arithmetic object ++ [
  .fact [.keyword (.named "nat"), Term.int 0],
  ⟨[.keyword (.named "nat"), .var (.named "n")],
    .all [
      .call [.term (.keyword (.named "nat")), .term (.var (.named "m"))],
      .call [.term (.keyword (.named "same")), .term (.var (.named "n")),
        .phrase [.term (.const (.atom "succ")), .term (.var (.named "m"))]]]⟩]

end Deduction.Sample
