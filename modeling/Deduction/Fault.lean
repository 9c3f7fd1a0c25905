import Deduction.Term

/-!
# Faults

Why an operation could not be carried out. That two terms do not match is no
fault: matching reports it as a result of its own.
-/

namespace Deduction

/-- Why an operation could not be carried out. -/
inductive Fault where
  /-- The variable was never declared. -/
  | unknownVariable (name : Variable)
  /-- The phrase stands where a term is required. -/
  | nestedPhrase (elements : List Expr)
  /-- Two payloads could not be compared. -/
  | payload (cause : PayloadFault)
  /-- The host goal of that name gave up. -/
  | host (name : String) (reason : String)
  deriving DecidableEq, Repr

/-- The wording of a fault. -/
def Fault.message : Fault → String
  | unknownVariable v => "Unknown variable " ++ v.render
  | nestedPhrase es =>
    "Invalid term: Phrase " ++ (Expr.phrase es).render ++ " must be expanded before matching"
  | payload cause => "Payload comparison failed: " ++ cause.message
  | host name reason => "Predicate " ++ name ++ " failed: " ++ reason

/-- A phrase is refused where a term is required. -/
def Expr.toTerm : Expr → Except Fault Term
  | term t => .ok t
  | phrase es => .error (.nestedPhrase es)

end Deduction
