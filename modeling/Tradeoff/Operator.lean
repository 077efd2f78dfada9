/-!
# Operators

The operators an expression may apply, with their names and the numbers of arguments they take. The
list is closed: a name that is not in it is refused when an expression is built.
-/

namespace Tradeoff

/-- How many arguments an operator takes. -/
inductive Arity where
  /-- This many. -/
  | exactly (n : Nat)
  /-- This many or more. -/
  | atLeast (n : Nat)
deriving DecidableEq, Repr

namespace Arity

/-- Whether `count` arguments are of the arity. -/
def accepts : Arity → Nat → Bool
  | .exactly n, count => count == n
  | .atLeast n, count => n ≤ count

/-- The arity in words. -/
def text : Arity → String
  | .exactly n => "exactly " ++ toString n
  | .atLeast n => "at least " ++ toString n

end Arity

/-- An operator. -/
inductive Operator where
  /-- The sum of the arguments. -/
  | add
  /-- The product of the arguments. -/
  | multiply
  /-- The negated argument. -/
  | negate
  /-- The first argument divided by the second. -/
  | divide
  /-- The first argument to the power of the second. -/
  | power
  /-- The greatest argument; takes whole vectors. -/
  | max
  /-- The least argument; takes whole vectors. -/
  | min
  /-- The sum of the arguments; takes whole vectors. -/
  | sum
  /-- The absolute value. -/
  | abs
  /-- The square root. -/
  | sqrt
  /-- The argument times itself. -/
  | square
  /-- The exponential. -/
  | exp
  /-- The natural logarithm. -/
  | ln
  /-- The decimal logarithm. -/
  | log10
  /-- The sine. -/
  | sin
  /-- The cosine. -/
  | cos
  /-- The tangent. -/
  | tan
  /-- The arc tangent. -/
  | arctan
  /-- A component of a vector, counted from one. -/
  | component
deriving DecidableEq, Repr

namespace Operator

/-- All operators, in the order of their declaration. -/
def all : List Operator :=
  [add, multiply, negate, divide, power, max, min, sum, abs, sqrt, square, exp, ln, log10, sin, cos,
    tan, arctan, component]

/-- The name of an operator in formulas, array forms and messages. -/
def name : Operator → String
  | add => "Add"
  | multiply => "Multiply"
  | negate => "Negate"
  | divide => "Divide"
  | power => "Power"
  | max => "Max"
  | min => "Min"
  | sum => "Sum"
  | abs => "Abs"
  | sqrt => "Sqrt"
  | square => "Square"
  | exp => "Exp"
  | ln => "Ln"
  | log10 => "Log10"
  | sin => "Sin"
  | cos => "Cos"
  | tan => "Tan"
  | arctan => "Arctan"
  | component => "At"

/-- A name with its ASCII letters in lower case; other characters are kept. -/
def foldCase (name : String) : List Char := name.toList.map Char.toLower

/-- The operator of a name, whatever the case of its ASCII letters. -/
def ofName? (name : String) : Option Operator :=
  all.find? fun op ↦ foldCase op.name = foldCase name

/-- How many arguments the operator takes. -/
def arity : Operator → Arity
  | add | multiply => .atLeast 2
  | max | min | sum => .atLeast 1
  | divide | power | component => .exactly 2
  | negate | abs | sqrt | square | exp | ln | log10 | sin | cos | tan | arctan => .exactly 1

/-- Whether a whole vector among the arguments stands for its components. -/
def expandsVectors : Operator → Bool
  | max | min | sum => true
  | _ => false

theorem mem_all (op : Operator) : op ∈ all := by cases op <;> decide

end Operator

end Tradeoff
