import Deduction.Host

/-!
# Integers in host goals

A host goal reads its operands from the rule's own variables and gives up when
one of them is not known to be an integer.
-/

namespace Deduction

/-- The integer that a rule's own variable stands for; the host goal of the given name
gives up without one. -/
def Env.operand (k : Env) (host : String) (l : Variable) : Except Fault Int64 :=
  match k.lookup l with
  | .error f => .error f
  | .ok c =>
    match c.bind Constant.int? with
    | some n => .ok n
    | none => .error (.host host (l.render ++ " is not a bound integer"))

/-- An integer as a term. -/
def Term.int (n : Int64) : Term := .const (.value (.int n))

/-- Arithmetic operations. -/
inductive Operation where
  | add
  | sub
  | mul
  deriving DecidableEq, Repr

namespace Operation

/-- The mathematical result of an operation. -/
def eval : Operation → Int → Int → Int
  | add, a, b => a + b
  | sub, a, b => a - b
  | mul, a, b => a * b

/-- The result of an operation, if it is in the range of integer payloads. -/
def checked (op : Operation) (a b : Int64) : Option Int64 :=
  let n := op.eval a.toInt b.toInt
  if Int64.minValue.toInt ≤ n ∧ n ≤ Int64.maxValue.toInt then some (Int64.ofInt n) else none

end Operation

end Deduction
