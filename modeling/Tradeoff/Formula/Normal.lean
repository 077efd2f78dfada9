import Tradeoff.Expr.Nodes
import Tradeoff.Formula.Print

/-!
# Normal forms

Two expressions can have one printed form: a sum at the start of a sum prints as one sum, and a
negated number prints as a number with a minus sign. `Expr.normalize` is the expression that the
printed form stands for. An expression is printable if its printed form is a formula at all.
-/

namespace Tradeoff.Expr

/-- The operation with normal arguments. A sum at the start of a sum and a product at the start of a
product are spliced into it, and a negated number is the number of the other sign. -/
def assemble : Operator → List Expr → Expr
  | .add, .operation .add terms :: args => .operation .add (terms ++ args)
  | .multiply, .operation .multiply factors :: args => .operation .multiply (factors ++ args)
  | .negate, [.literal (.number value)] => number (-value)
  | op, args => .operation op args

mutual

/-- The expression that the printed form of an expression stands for. -/
def normalize : Expr → Expr
  | .literal value => .literal value
  | .symbol name => .symbol name
  | .operation .add (arg :: args) => assemble .add (normalize arg :: normalizeTerms args)
  | .operation op args => assemble op (normalizeList args)

/-- The normal forms of the terms of a sum after the first. There a negation is the minus sign of a
difference and stays, even before a number. -/
def normalizeTerms : List Expr → List Expr
  | [] => []
  | .operation .negate args :: terms =>
    .operation .negate (normalizeList args) :: normalizeTerms terms
  | term :: terms => normalize term :: normalizeTerms terms

/-- The normal forms of a list of expressions. -/
def normalizeList : List Expr → List Expr
  | [] => []
  | arg :: args => normalize arg :: normalizeList args

end

/-- The printed form of the expression is a formula: operators get as many arguments as they take,
numbers are finite and symbols are identifiers. -/
structure Printable (e : Expr) : Prop where
  /-- Operators get as many arguments as they take. -/
  takesArity : e.TakesArity
  /-- Numbers are finite. -/
  finiteNumbers : e.FiniteNumbers
  /-- Symbols are identifiers. -/
  identifiers : ∀ symbol ∈ e.mentions, isIdentifier symbol

end Tradeoff.Expr
