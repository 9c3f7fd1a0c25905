import Deduction.Rule

/-!
# A family

Five parent facts and the rule that a parent of a parent is a grandparent. The same for
fathers, where phrases name the father of somebody.
-/

namespace Deduction.Sample

/-- The pattern that relates a parent to a child. -/
def parentOf (parent child : Term) : Pattern := [parent, .keyword (.named "parent-of"), child]

/-- The pattern that relates a grandparent to a grandchild. -/
def grandparentOf (grandparent child : Term) : Pattern :=
  [grandparent, .keyword (.named "grandparent-of"), child]

/-- The fact that one atom is a parent of another. -/
def parentFact (parent child : String) : Rule :=
  .fact (parentOf (.const (.atom parent)) (.const (.atom child)))

/-- A variable written by name, as an element of a phrase. -/
def written (name : String) : Expr := .term (.var (.named name))

/-- Three generations: tom, his children bob and liz, and their children. -/
def family : Program := [
  parentFact "tom" "bob",
  parentFact "tom" "liz",
  parentFact "bob" "ann",
  parentFact "bob" "pat",
  parentFact "liz" "jim",
  ⟨grandparentOf (.var (.named "g")) (.var (.named "c")),
    .all [
      .call [written "g", .term (.keyword (.named "parent-of")), written "p"],
      .call [written "p", .term (.keyword (.named "parent-of")), written "c"]]⟩]

/-- An atom, as an element of a phrase. -/
def atom (name : String) : Expr := .term (.const (.atom name))

/-- The fact that defines the father of a child. -/
def fatherFact (father child : String) : Rule :=
  .fact [.const (.atom father), .keyword .definition, .const (.atom "father"),
    .const (.atom child)]

/-- The pattern that relates a grandfather to a grandchild. -/
def grandfatherOf (grandfather child : Term) : Pattern :=
  [grandfather, .keyword (.named "grandfather-of"), child]

/-- A grandfather is the father of the father. -/
def grandfatherRule : Rule where
  condition := grandfatherOf (.var (.named "g")) (.var (.named "c"))
  body := .call [written "g", .term (.keyword (.named "is")),
    .phrase [atom "father", .phrase [atom "father", written "c"]]]

/-- Everything is the same as itself, two fathers, and the rule for grandfathers. -/
def fathers : Program := [
  .fact [.var (.named "x"), .keyword (.named "is"), .var (.named "x")],
  fatherFact "tom" "bob",
  fatherFact "bob" "ann",
  grandfatherRule]

end Deduction.Sample
