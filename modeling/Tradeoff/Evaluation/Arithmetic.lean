import Tradeoff.Environment
import Tradeoff.Evaluation.Error

/-!
# Operators on numbers

`Operator.apply` computes an operator for the arguments of one sample. An argument that is not a
number comes from a sample that failed before: it makes the result not a number and is no new fault.
Otherwise a result that is not a number is a fault, so that every such value has one cause.

Sums and products go from left to right. A sum starts from negative zero, which added to any number
gives that number, and a product from one.
-/

namespace Tradeoff

/-- The greater of two numbers. -/
def greater (a b : Float) : Float := if a < b then b else a

/-- The lesser of two numbers. -/
def lesser (a b : Float) : Float := if b < a then b else a

namespace Operator

/-- The operator on numbers. The last case is for a number of arguments it does not take. -/
def value : Operator → List Float → Except Fault Float
  | add, args | sum, args => .ok (args.foldl (· + ·) (-0.0))
  | multiply, args => .ok (args.foldl (· * ·) 1)
  | max, args => .ok (args.foldl greater (-1 / 0))
  | min, args => .ok (args.foldl lesser (1 / 0))
  | negate, [a] => .ok (-a)
  | divide, [a, b] => if b == 0 then .error .divisionByZero else .ok (a / b)
  | power, [a, b] => if a == 0 && b < 0 then .error .divisionByZero else .ok (a.pow b)
  | abs, [a] => .ok a.abs
  | sqrt, [a] => .ok a.sqrt
  | square, [a] => .ok (a * a)
  | exp, [a] => .ok a.exp
  | ln, [a] => if a ≤ 0 then .error (.domain ln) else .ok a.log
  | log10, [a] => if a ≤ 0 then .error (.domain log10) else .ok a.log10
  | sin, [a] => .ok a.sin
  | cos, [a] => .ok a.cos
  | tan, [a] => .ok a.tan
  | arctan, [a] => .ok a.atan
  | op, args => .error (.arity op args.length)

/-- The operator on the arguments of one sample. -/
def apply (op : Operator) (args : List Float) : Except Fault Float :=
  if args.any Float.isNaN then .ok notANumber
  else
    match op.value args with
    | .error fault => .error fault
    | .ok value => if value.isNaN then .error (.domain op) else .ok value

end Operator

/-- The component that an index names, counted from zero: the index is a whole number from one on.
An index too large for 64 bits names none that a vector could have. -/
def offset? (index : Float) : Option Nat :=
  if 1 ≤ index && index.toUInt64.toFloat == index then some (index.toUInt64.toNat - 1) else none

end Tradeoff
