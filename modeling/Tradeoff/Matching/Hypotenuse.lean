import Tradeoff.Environment

/-!
# The hypotenuse

`hypotenuse x y` is the length of the hypotenuse over two legs, rounded only once. The squares of
two doubles and their sum are exact as integers times a power of two, so neither do small legs
vanish nor large ones overflow before the root is taken.

It is one of many functions for this length: how exact they are is not laid down anywhere, and two
of them may differ in the last digits. What is computed from lengths therefore takes the function as
an argument. This one stands in where none is given.
-/

namespace Tradeoff

open Float.Model (UnpackedFloat Format)

/-- The square root of `mantissa * 2 ^ exponent`, rounded to the nearest double. -/
def sqrtScaled (mantissa : Nat) (exponent : Int) : Float :=
  if h : 0 < mantissa then
    .ofModel (.pack (UnpackedFloat.sqrt Format.binary64 (.finite .positive mantissa exponent h)))
  else 0

/-- The double nearest to the root of the sum of two squares. An infinite leg makes it infinite,
whatever the other leg is. -/
def hypotenuse (x y : Float) : Float :=
  match x.toModel.unpack, y.toModel.unpack with
  | .infinity _, _ | _, .infinity _ => 1 / 0
  | .notANumber, _ | _, .notANumber => notANumber
  | .zero _, _ => y.abs
  | _, .zero _ => x.abs
  | .finite _ m e _, .finite _ n f _ =>
    let g := min e f
    let m := m * Nat.pow 2 (e - g).toNat
    let n := n * Nat.pow 2 (f - g).toNat
    sqrtScaled (m * m + n * n) (2 * g)

end Tradeoff
