/-!
# Decimals and the shortest one that reads back

A `Decimal` is a natural number times a power of ten. It is what the text of a number denotes before
any rounding: reading is `Decimal.toFloat`, one correct rounding to the nearest double, and writing
starts from `Decimal.ofFloat`, the shortest decimal that reads back to the double.

## How the shortest decimal is found

The decimals with exponent `k` form a grid of step `10 ^ k`. If any point of a grid reads back to a
double, then one of the two neighbours of the double on that grid does, so only these two are tried
(`neighbour?`). Grids are tried from the coarsest that can matter to finer ones, and the first hit
wins. The search compares exact integers and reads candidates back, so that "reads back" holds of
every hit because it was tested.

A double is a multiple of a power of two, so it is also a decimal, with many digits. That one
(`exact`) ends the search; seventeen digits are always enough, so it is never needed.
-/

namespace Tradeoff

/-- The number `digits * 10 ^ exponent`. -/
structure Decimal where
  /-- The decimal digits, as one natural number. -/
  digits : Nat
  /-- The power of ten that scales them. -/
  exponent : Int
deriving DecidableEq, Repr, Inhabited

/-- Which of two equally close decimals is written. -/
inductive Tie where
  /-- The greater one. -/
  | up
  /-- The one whose last digit is even. -/
  | even
deriving DecidableEq, Repr

namespace Decimal

/-- The double nearest to the decimal, ties going to the even mantissa; infinity from half a step
beyond the largest finite double. -/
def toFloat (d : Decimal) : Float :=
  Float.ofScientific d.digits (decide (d.exponent < 0)) d.exponent.natAbs

/-! ### A positive rational and its neighbours on a decimal grid -/

/-- The positive rational `num / den`. -/
structure Ratio where
  /-- The numerator. -/
  num : Nat
  /-- The denominator. -/
  den : Nat

/-- The value `mantissa * 2 ^ exponent` as a quotient of natural numbers. -/
def Ratio.ofBinary (mantissa : Nat) (exponent : Int) : Ratio :=
  ⟨mantissa * Nat.pow 2 exponent.toNat, Nat.pow 2 (-exponent).toNat⟩

/-- The number of decimal digits of `n`; one for zero. -/
def length (n : Nat) : Nat := (Nat.toDigits 10 n).length

/-- The exponent of the leading digit: the greatest `k` with `10 ^ k` at most the value. -/
def Ratio.leading (r : Ratio) : Int :=
  if r.den ≤ r.num then (length (r.num / r.den) : Int) - 1
  else -(length ((r.den - 1) / r.num) : Int)

/-- The greatest `n` with `n * 10 ^ k` at most the value. -/
def Ratio.floorOn (r : Ratio) (k : Int) : Nat :=
  r.num * Nat.pow 10 (-k).toNat / (r.den * Nat.pow 10 k.toNat)

/-- Of the neighbours `n` and `n + 1` on the grid of step `10 ^ k`, the one closer to the value. -/
def Ratio.closer (r : Ratio) (tie : Tie) (n : Nat) (k : Int) : Nat :=
  let value := r.num * Nat.pow 10 (-k).toNat
  let step := r.den * Nat.pow 10 k.toNat
  match compare (2 * value) ((2 * n + 1) * step) with
  | .lt => n
  | .gt => n + 1
  | .eq =>
    match tie with
    | .up => n + 1
    | .even => if n % 2 = 0 then n else n + 1

/-! ### The search -/

/-- The neighbour of `r` on the grid of step `10 ^ k` that reads back to `x`; of two such neighbours
the closer. -/
def neighbour? (tie : Tie) (x : Float) (r : Ratio) (k : Int) : Option Decimal :=
  let n := r.floorOn k
  match decide (toFloat ⟨n, k⟩ = x), decide (toFloat ⟨n + 1, k⟩ = x) with
  | true, true => some ⟨r.closer tie n k, k⟩
  | true, false => some ⟨n, k⟩
  | false, true => some ⟨n + 1, k⟩
  | false, false => none

/-- The value `mantissa * 2 ^ exponent` with all its digits: a power of a half is as many powers of
five over as many powers of ten. -/
def exact (mantissa : Nat) (exponent : Int) : Decimal :=
  ⟨mantissa * Nat.pow 2 exponent.toNat * Nat.pow 5 (-exponent).toNat, min exponent 0⟩

/-- The shortest decimal that reads back to the positive double `x = mantissa * 2 ^ exponent`, and
the closest to `x` of those. The first grid lies just above the leading digit, since a double just
below a power of ten may be written as that power. -/
def shortest (tie : Tie) (x : Float) (mantissa : Nat) (exponent : Int) : Decimal :=
  let r := Ratio.ofBinary mantissa exponent
  let top := r.leading + 1
  let nearest? := (List.range 18).findSome? fun n : Nat ↦ neighbour? tie x r (top - n)
  nearest?.getD (exact mantissa exponent)

end Decimal

/-! ### Doubles -/

/-- The decimal form of a double: what there is to write. -/
inductive DecimalForm where
  /-- Not a number. -/
  | nan
  /-- An infinity and whether it is negative. -/
  | infinity (negative : Bool)
  /-- A finite double: whether its sign is negative, and its shortest decimal. Zero has the decimal
  `0 * 10 ^ 0` under either sign. -/
  | finite (negative : Bool) (magnitude : Decimal)
deriving DecidableEq, Repr

/-- Whether a sign is the negative one. -/
def isMinus : Float.Model.UnpackedFloat.Sign → Bool
  | .negative => true
  | .positive => false

/-- Whether a double carries a minus sign, as negative zero does and what is not a number does
not. -/
def carriesMinus (x : Float) : Bool :=
  match x.toModel.unpack with
  | .notANumber => false
  | .infinity sign => isMinus sign
  | .zero sign => isMinus sign
  | .finite sign _ _ _ => isMinus sign

/-- The decimal form of `x`, with ties between shortest decimals going as `tie` says. -/
def DecimalForm.ofFloat (tie : Tie) (x : Float) : DecimalForm :=
  match x.toModel.unpack with
  | .notANumber => .nan
  | .infinity sign => .infinity (isMinus sign)
  | .zero sign => .finite (isMinus sign) ⟨0, 0⟩
  | .finite sign mantissa exponent _ =>
    .finite (isMinus sign) (Decimal.shortest tie x.abs mantissa exponent)

end Tradeoff
