import Tradeoff.Proofs.Decimal.Doubles

/-!
# Rounding

The result of an operation on doubles is rounded to the nearest double. Rounding goes by the value
of what is rounded, not by how it is split into a mantissa and an exponent, as long as the mantissa
has bits enough (`roundWithAccuracy_mul`), and it does not change a double
(`roundWithAccuracy_of_isCanonical`).

So the product of two whole numbers is the double nearest to their product, whichever mantissas and
exponents stand for them (`roundWithAccuracy_product`), and a quotient is exact if it is the value
of a double (`div_eq_of_isCanonical`).
-/

namespace Tradeoff

open Float.Model (Format UnpackedFloat totalExponent)
open Float.Model.UnpackedFloat

/-! ### The exponent that rounding aims at -/

theorem targetExponent_eq (total : Int) :
    Format.binary64.targetExponent total = max (total - 53) (-1074) := rfl

/-- Powers of two only add bits. -/
theorem log2_mul_two_pow {n : Nat} (hpos : 0 < n) (k : Nat) : (n * 2 ^ k).log2 = n.log2 + k := by
  induction k with
  | zero => simp
  | succ k ih =>
    have hne : n * 2 ^ k ≠ 0 := Nat.mul_ne_zero (by omega) (Nat.ne_of_gt (Nat.two_pow_pos k))
    have htwo : n * 2 ^ (k + 1) = 2 * (n * 2 ^ k) := by
      rw [Nat.pow_succ]
      ac_rfl
    rw [htwo, Nat.log2_two_mul hne, ih]
    omega

/-- The place of the leading bit goes by the value. -/
theorem totalExponent_mul {mantissa : Nat} (hpos : 0 < mantissa) (exponent : Int) (k : Nat) :
    totalExponent (mantissa * 2 ^ k) (exponent - k) = totalExponent mantissa exponent := by
  unfold totalExponent
  rw [log2_mul_two_pow hpos]
  omega

/-- The exponent of a double is the one that rounding aims at. -/
theorem IsCanonical.targetExponent_eq {mantissa : Nat} {exponent : Int}
    (h : IsCanonical mantissa exponent) (hpos : 0 < mantissa) :
    Format.binary64.targetExponent (totalExponent mantissa exponent) = exponent := by
  have hlog : mantissa.log2 < 53 := (Nat.log2_lt (by omega)).mpr h.mantissa_lt
  have hle := h.le_exponent
  rw [Tradeoff.targetExponent_eq]
  unfold totalExponent
  rcases h.full with hfull | hleast
  · have := log2_eq_of_full h.mantissa_lt hfull
    omega
  · omega

/-! ### Shifting -/

/-- Shifting twice is shifting once by the sum. -/
theorem shiftRight_add (em : ExtendedMantissa) (j k : Nat) : em >>> (j + k) = em >>> j >>> k := by
  induction k with
  | zero => rfl
  | succ k ih => exact congrArg ExtendedMantissa.shiftRightOne ih

/-- Shifting undoes a multiplication by a power of two, with nothing left over. -/
theorem shiftRight_mul (mantissa k : Nat) :
    (⟨mantissa * 2 ^ k, false, false⟩ : ExtendedMantissa) >>> k = ⟨mantissa, false, false⟩ := by
  induction k generalizing mantissa with
  | zero => simp [HShiftRight.hShiftRight, Nat.repeat]
  | succ k ih =>
    -- The last bit that is shifted out is zero as well, so that no trace of it is kept.
    have hinner := ih (mantissa * 2)
    rw [Nat.pow_succ, Nat.mul_comm (2 ^ k), ← Nat.mul_assoc, shiftRight_add, hinner]
    show ExtendedMantissa.shiftRightOne ⟨mantissa * 2, false, false⟩ = _
    simp [ExtendedMantissa.shiftRightOne]

/-- Bits below the ones that are kept do not matter if they are zero. -/
theorem shiftToTargetExponent_mul {mantissa : Nat} {exponent : Int} (hpos : 0 < mantissa)
    (hbits : exponent ≤ Format.binary64.targetExponent (totalExponent mantissa exponent))
    (k : Nat) :
    shiftToTargetExponent .binary64 (mantissa * 2 ^ k) (exponent - k) .exact =
      shiftToTargetExponent .binary64 mantissa exponent .exact := by
  unfold shiftToTargetExponent shiftToExponent
  rw [totalExponent_mul hpos]
  generalize Format.binary64.targetExponent (totalExponent mantissa exponent) = target at hbits ⊢
  have hamount : (target - (exponent - k)).toNat = k + (target - exponent).toNat := by omega
  simp only [hamount, ExtendedMantissa.ofMantissaAndAccuracy, shiftRight_add, shiftRight_mul]
  congr 1
  omega

/-- A canonical mantissa is not shifted. -/
theorem shiftToTargetExponent_of_isCanonical {mantissa : Nat} {exponent : Int}
    (h : IsCanonical mantissa exponent) (hpos : 0 < mantissa) :
    shiftToTargetExponent .binary64 mantissa exponent .exact =
      (⟨mantissa, false, false⟩, exponent) := by
  unfold shiftToTargetExponent shiftToExponent
  rw [h.targetExponent_eq hpos]
  have hamount : (exponent - exponent).toNat = 0 := by omega
  simp only [hamount, ExtendedMantissa.ofMantissaAndAccuracy]
  congr 1
  omega

/-! ### Rounding goes by the value -/

section Round

variable (sign : Sign) {mantissa : Nat} {exponent : Int} (hpos : 0 < mantissa)

include hpos in
/-- More bits of the same value round to the same double. -/
theorem roundWithAccuracy_mul
    (hbits : exponent ≤ Format.binary64.targetExponent (totalExponent mantissa exponent))
    (k : Nat) :
    roundWithAccuracy .binary64 sign (mantissa * 2 ^ k) (exponent - k) .exact =
      roundWithAccuracy .binary64 sign mantissa exponent .exact := by
  unfold roundWithAccuracy
  rw [shiftToTargetExponent_mul hpos hbits]

/-- A double is rounded already. -/
theorem roundWithAccuracy_of_isCanonical (h : IsCanonical mantissa exponent) :
    roundWithAccuracy .binary64 sign mantissa exponent .exact =
      .finite sign mantissa exponent hpos := by
  have hshift := shiftToTargetExponent_of_isCanonical h hpos
  have hround : (⟨mantissa, false, false⟩ : ExtendedMantissa).roundedMantissa = mantissa := rfl
  have hne : mantissa ≠ 0 := by omega
  simp only [roundWithAccuracy, hshift, hround, hne, dite_false]

include hpos in
/-- Two pairs of a mantissa and an exponent with the same value round to the same double. -/
theorem roundWithAccuracy_congr {mantissa' : Nat} {exponent' : Int} (hpos' : 0 < mantissa')
    (hbits : exponent ≤ Format.binary64.targetExponent (totalExponent mantissa exponent))
    (hbits' : exponent' ≤ Format.binary64.targetExponent (totalExponent mantissa' exponent'))
    {j k : Nat} (hvalue : mantissa * 2 ^ j = mantissa' * 2 ^ k)
    (hexponent : exponent - j = exponent' - k) :
    roundWithAccuracy .binary64 sign mantissa exponent .exact =
      roundWithAccuracy .binary64 sign mantissa' exponent' .exact := by
  rw [← roundWithAccuracy_mul sign hpos hbits j, ← roundWithAccuracy_mul sign hpos' hbits' k,
    hvalue, hexponent]

end Round

/-! ### Products of whole numbers -/

/-- The mantissa and the exponent have a whole number for their value. -/
structure IsWhole (n mantissa : Nat) (exponent : Int) : Prop where
  /-- There are no more than 53 bits after the point. -/
  le_exponent : -53 ≤ exponent
  /-- The value, with 53 bits after the point. -/
  value_eq : mantissa * 2 ^ (exponent + 53).toNat = n * 2 ^ 53

/-- A whole number with a mantissa is positive. -/
theorem IsWhole.pos {n mantissa : Nat} {exponent : Int} (h : IsWhole n mantissa exponent)
    (hpos : 0 < mantissa) : 0 < n := by
  have hvalue : 0 < n * 2 ^ 53 := by
    rw [← h.value_eq]
    exact Nat.mul_pos hpos (Nat.two_pow_pos _)
  omega

/-- The double nearest to a whole number other than zero. -/
def nearestWhole (n : Nat) : Float :=
  .ofModel (.pack (roundWithAccuracy .binary64 .positive (n * 2 ^ 53) (-53) .exact))

/-- The product of two whole numbers is rounded to the double nearest to it. -/
theorem roundWithAccuracy_product {n n' mantissa mantissa' : Nat} {exponent exponent' : Int}
    (h : IsWhole n mantissa exponent) (h' : IsWhole n' mantissa' exponent') (hpos : 0 < mantissa')
    (hbits : 2 ^ 52 ≤ mantissa) :
    roundWithAccuracy .binary64 .positive (mantissa * mantissa') (exponent + exponent') .exact =
      roundWithAccuracy .binary64 .positive (n * n' * 2 ^ 53) (-53) .exact := by
  have hfull : 2 ^ 52 ≤ mantissa * mantissa' := Nat.le_trans hbits (Nat.le_mul_of_pos_right _ hpos)
  have hlog : 52 ≤ (mantissa * mantissa').log2 := (Nat.le_log2 (by omega)).mpr hfull
  have hn : 0 < n * n' := Nat.mul_pos (h.pos (by omega)) (h'.pos hpos)
  have hvalue : mantissa * mantissa' * 2 ^ ((exponent + 53).toNat + (exponent' + 53).toNat) =
      n * n' * 2 ^ 53 * 2 ^ 53 := by
    calc mantissa * mantissa' * 2 ^ ((exponent + 53).toNat + (exponent' + 53).toNat)
        = mantissa * 2 ^ (exponent + 53).toNat * (mantissa' * 2 ^ (exponent' + 53).toNat) := by
          rw [Nat.pow_add]
          ac_rfl
      _ = n * 2 ^ 53 * (n' * 2 ^ 53) := by rw [h.value_eq, h'.value_eq]
      _ = n * n' * 2 ^ 53 * 2 ^ 53 := by ac_rfl
  have hle := h.le_exponent
  have hle' := h'.le_exponent
  -- Both sides have the same value, and bits enough for a mantissa.
  refine roundWithAccuracy_congr .positive (by omega) (by omega) ?_ ?_ hvalue (by omega)
  · rw [targetExponent_eq]
    unfold totalExponent
    omega
  · rw [targetExponent_eq]
    unfold totalExponent
    rw [log2_mul_two_pow hn]
    omega

/-! ### Quotients that are doubles -/

/-- The bits of a product are at most those of both factors. -/
theorem log2_mul_le {m n : Nat} (hm : 0 < m) (hn : 0 < n) :
    (m * n).log2 ≤ m.log2 + n.log2 + 1 := by
  have hlt : m * n < 2 ^ (m.log2 + n.log2 + 2) := by
    calc m * n < 2 ^ (m.log2 + 1) * 2 ^ (n.log2 + 1) :=
          Nat.mul_lt_mul'' Nat.lt_log2_self Nat.lt_log2_self
      _ = 2 ^ (m.log2 + n.log2 + 2) := by
          rw [← Nat.pow_add]
          congr 1
          omega
  have hne : m * n ≠ 0 := Nat.mul_ne_zero (by omega) (by omega)
  have := (Nat.log2_lt hne).mpr hlt
  omega

/-- The quotient of two values is exact if it is the value of a double. -/
theorem div_eq_of_isCanonical (sign sign' : Sign) {mantissa mantissa' m : Nat}
    {exponent exponent' e : Int} (hpos : 0 < mantissa) (hpos' : 0 < mantissa') (hm : 0 < m)
    (hcanonical : IsCanonical m e) {j k : Nat}
    (hvalue : mantissa * 2 ^ j = m * mantissa' * 2 ^ k)
    (hexponent : exponent - exponent' - j = e - k) :
    div .binary64 (.finite sign mantissa exponent hpos) (.finite sign' mantissa' exponent' hpos') =
      .finite (sign / sign') m e hm := by
  generalize htarget : min (exponent - exponent') (Format.binary64.targetExponent
    (totalExponent mantissa exponent - totalExponent mantissa' exponent')) = target
  have hle : target ≤ e := by
    -- The quotient of the leading bits is at most the leading bit of the quotient.
    have hlog : mantissa.log2 + j = (m * mantissa').log2 + k := by
      rw [← log2_mul_two_pow hpos, hvalue, log2_mul_two_pow (Nat.mul_pos hm hpos')]
    have hlogle := log2_mul_le hm hpos'
    have hexact := hcanonical.targetExponent_eq hm
    rw [targetExponent_eq] at htarget hexact
    unfold totalExponent at htarget hexact
    omega
  -- The shifted mantissa is a multiple of the divisor: no remainder is left to round.
  have hquotient : mantissa <<< (exponent - exponent' - target).toNat =
      m * 2 ^ (e - target).toNat * mantissa' := by
    apply Nat.eq_of_mul_eq_mul_right (Nat.two_pow_pos j)
    rw [Nat.shiftLeft_eq]
    calc mantissa * 2 ^ (exponent - exponent' - target).toNat * 2 ^ j
        = mantissa * 2 ^ j * 2 ^ (exponent - exponent' - target).toNat := by ac_rfl
      _ = m * mantissa' * 2 ^ (k + (exponent - exponent' - target).toNat) := by
          rw [hvalue, Nat.mul_assoc, Nat.pow_add]
      _ = m * mantissa' * 2 ^ ((e - target).toNat + j) := by
          congr 2
          omega
      _ = m * 2 ^ (e - target).toNat * mantissa' * 2 ^ j := by
          rw [Nat.pow_add]
          ac_rfl
  have hround := roundWithAccuracy_mul (sign / sign') hm
    (Int.le_of_eq (hcanonical.targetExponent_eq hm).symm) (e - target).toNat
  have hexponent' : e - ((e - target).toNat : Int) = target := by omega
  rw [hexponent', roundWithAccuracy_of_isCanonical _ hm hcanonical] at hround
  simp only [div, divCore, htarget, hquotient, Nat.mul_div_cancel _ hpos', Nat.mul_mod_left,
    accuracyOfFraction, if_true, hround]

end Tradeoff
