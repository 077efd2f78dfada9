import Tradeoff.Proofs.Decimal.Neutral
import Tradeoff.Proofs.Decimal.Order

/-!
# Zeros and halves

Halves of equal finite doubles differ by a zero (`isZero_halves_sub`), because half of a finite
double is finite (`isFinite_half`), and a zero divided by a positive finite double is a zero too
(`IsZero.div`).

Zeros are the doubles equal to zero, of either sign (`isZero_iff_beq`). Doubles that carry no minus
sign are not below zero (`not_lt_zero_of_carriesMinus`). Whatever is packed with a plus sign is such
a double, even if it was not rounded before (`carriesMinus_ofModel_pack`).
-/

namespace Tradeoff

open Float.Model (Format UnpackedFloat totalExponent)
open Float.Model.UnpackedFloat

/-! ### Signs -/

/-- The parts carry no minus sign. -/
def IsUnsigned : UnpackedFloat → Prop
  | .notANumber => True
  | .infinity sign | .zero sign | .finite sign _ _ _ => sign = .positive

/-- A double carries no minus sign exactly if its parts carry none. -/
theorem carriesMinus_eq_false_iff {x : Float} :
    carriesMinus x = false ↔ IsUnsigned x.toModel.unpack := by
  unfold carriesMinus
  rcases x.toModel.unpack with (_ | _) | _ | (_ | _) | ⟨_ | _, _, _, _⟩ <;>
    simp [IsUnsigned, isMinus]

/-- An absolute value carries no minus sign. -/
theorem carriesMinus_abs (x : Float) : carriesMinus x.abs = false := by
  rw [carriesMinus_eq_false_iff, unpack_abs]
  rcases x.toModel.unpack with _ | _ | _ | _ <;> trivial

/-- Packed with a plus sign, parts come back with one. -/
theorem isUnsigned_unpack_packComponents (exponent : BitVec 11) (mantissa : BitVec 52) :
    IsUnsigned (unpack .binary64 (packComponents .binary64 .positive exponent mantissa)) := by
  rw [unpack]
  simp only [unpackSign_packComponents, Sign.ofBitVec_toBitVec]
  split
  · split <;> trivial
  · split
    · split <;> trivial
    · trivial

/-- What is packed with a plus sign carries no minus sign. -/
theorem carriesMinus_ofModel_pack {parts : UnpackedFloat} (h : IsUnsigned parts) :
    carriesMinus (.ofModel (.pack parts)) = false := by
  have hbits : ∃ exponent mantissa, pack .binary64 parts =
      packComponents .binary64 .positive exponent mantissa := by
    rcases parts with sign | _ | sign | ⟨sign, mantissa, exponent, hpos⟩
    case notANumber => exact ⟨_, _, rfl⟩
    case finite =>
      obtain rfl : sign = .positive := h
      rw [pack]
      dsimp only
      split
      · exact ⟨_, _, rfl⟩
      · split <;> exact ⟨_, _, rfl⟩
    all_goals
      obtain rfl : sign = .positive := h
      exact ⟨_, _, rfl⟩
  obtain ⟨exponent, mantissa, hbits⟩ := hbits
  rw [carriesMinus_eq_false_iff]
  show IsUnsigned (unpack .binary64 (pack .binary64 parts))
  rw [hbits]
  exact isUnsigned_unpack_packComponents exponent mantissa

/-- Rounding keeps a plus sign. -/
theorem isUnsigned_roundWithAccuracy (mantissa : Nat) (exponent : Int) (accuracy : Accuracy) :
    IsUnsigned (roundWithAccuracy .binary64 .positive mantissa exponent accuracy) := by
  unfold roundWithAccuracy
  dsimp only
  split <;> trivial

/-- Without a minus sign the place is not before that of zero. -/
theorem placeOf_nonneg {x : Float} (h : carriesMinus x = false) : 0 ≤ placeOf x := by
  rw [carriesMinus_eq_false_iff] at h
  have hstored := isStored_unpack x.toModel
  unfold placeOf
  generalize x.toModel.unpack = parts at h hstored ⊢
  rcases parts with sign | _ | sign | ⟨sign, mantissa, exponent, hpos⟩
  case finite =>
    obtain rfl : sign = .positive := h
    exact (IsCanonical.place_bounds hstored hpos).1.le
  case infinity =>
    obtain rfl : sign = .positive := h
    decide
  all_goals exact Int.le_refl 0

/-! ### Zeros -/

/-- The double is zero or negative zero. -/
def IsZero (x : Float) : Prop := ∃ sign, x.toModel.unpack = .zero sign

theorem placeOf_zero : placeOf 0 = 0 := rfl

theorem carriesMinus_zero : carriesMinus 0 = false := by
  decide +kernel

theorem isNaN_zero : (0 : Float).isNaN = false := by
  decide +kernel

/-- A double without a minus sign is not below zero. -/
theorem not_lt_zero_of_carriesMinus {x : Float} (h : carriesMinus x = false) : ¬x < 0 := by
  intro hlt
  have hplace := (lt_iff.mp hlt).2.2
  have hnonneg := placeOf_nonneg h
  rw [placeOf_zero] at hplace
  omega

/-- Equal finite doubles are one double or both zeros. -/
theorem eq_or_isZero_of_beq {x y : Float} (h : x == y) : x = y ∨ IsZero x ∧ IsZero y := by
  obtain ⟨hx, hy, hplace⟩ := beq_iff.mp h
  exact (eq_or_zeros_of_place_eq (isStored_unpack _) (isStored_unpack _) hx hy hplace).imp
    eq_of_unpack_eq id

/-- The zeros are the doubles equal to zero. -/
theorem isZero_iff_beq {x : Float} : IsZero x ↔ x == 0 := by
  constructor
  · rintro ⟨sign, hx⟩
    refine beq_iff.mpr ⟨?_, isNaN_zero, ?_⟩
    · rw [Bool.eq_false_iff, Ne, isNaN_iff_unpack, hx]
      exact nofun
    · rw [placeOf, hx]
      rfl
  · intro h
    rcases eq_or_isZero_of_beq h with rfl | ⟨hzero, -⟩
    · exact ⟨.positive, rfl⟩
    · exact hzero

/-- Zeros of either sign are zeros when they are packed. -/
theorem isZero_ofModel_pack (sign : Sign) : IsZero (.ofModel (.pack (.zero sign))) :=
  ⟨sign, unpack_pack trivial⟩

/-- A difference of zeros is a zero. -/
theorem IsZero.sub {x y : Float} (hx : IsZero x) (hy : IsZero y) : IsZero (x - y) := by
  obtain ⟨sign, hx⟩ := hx
  obtain ⟨sign', hy⟩ := hy
  show IsZero (.ofModel (.pack (UnpackedFloat.sub .binary64 x.toModel.unpack y.toModel.unpack)))
  rw [hx, hy]
  cases sign <;> cases sign' <;> exact isZero_ofModel_pack _

/-- A finite double has no difference from itself. -/
theorem isZero_sub_self {x : Float} (h : x.isFinite) : IsZero (x - x) := by
  have hstatus : x.toModel.unpack.isFinite = true := h
  rcases hx : x.toModel.unpack with _ | _ | sign | ⟨sign, mantissa, exponent, hpos⟩
  case zero => exact IsZero.sub ⟨sign, hx⟩ ⟨sign, hx⟩
  case finite =>
    show IsZero (.ofModel (.pack (UnpackedFloat.sub .binary64 x.toModel.unpack x.toModel.unpack)))
    rw [hx]
    simp only [UnpackedFloat.sub, Int.sub_self]
    exact isZero_ofModel_pack .positive
  all_goals
    rw [hx] at hstatus
    cases hstatus

/-- A zero divided by a positive double is a zero. -/
theorem IsZero.div {x y : Float} (h : IsZero x) (hpos : 0 < y) (hfinite : y.isFinite) :
    IsZero (x / y) := by
  obtain ⟨sign, hx⟩ := h
  have hstatus : y.toModel.unpack.isFinite = true := hfinite
  have hplace : 0 < place y.toModel.unpack := (lt_iff.mp hpos).2.2
  show IsZero (.ofModel (.pack (UnpackedFloat.div .binary64 x.toModel.unpack y.toModel.unpack)))
  rcases hy : y.toModel.unpack with _ | _ | _ | ⟨sign', mantissa, exponent, hmantissa⟩
  case finite =>
    rw [hx]
    exact isZero_ofModel_pack (sign / sign')
  case zero =>
    rw [hy] at hplace
    cases hplace
  all_goals
    rw [hy] at hstatus
    cases hstatus

/-- A finite double times a zero is a zero. -/
theorem IsZero.mul {x y : Float} (hfinite : x.isFinite) (h : IsZero y) : IsZero (x * y) := by
  obtain ⟨sign, hy⟩ := h
  have hstatus : x.toModel.unpack.isFinite = true := hfinite
  have hparts : ∃ sign', UnpackedFloat.mul .binary64 x.toModel.unpack y.toModel.unpack =
      .zero sign' := by
    rcases hx : x.toModel.unpack with _ | _ | sign' | ⟨sign', mantissa, exponent, hmantissa⟩
    case zero | finite => exact ⟨sign' * sign, by rw [hy]; rfl⟩
    all_goals
      rw [hx] at hstatus
      cases hstatus
  obtain ⟨sign', hparts⟩ := hparts
  exact ⟨sign', by rw [unpack_mul (by rw [hparts]; trivial), hparts]⟩

/-! ### Halves -/

/-- The parts of one half: its mantissa is a power of two. -/
theorem unpack_half :
    (0.5 : Float).toModel.unpack = .finite .positive (2 ^ 52) (-53) (Nat.two_pow_pos 52) := by
  rfl

/-- Half of a zero is a zero. -/
theorem IsZero.half {x : Float} (h : IsZero x) : IsZero (0.5 * x) :=
  .mul (by decide +kernel) h

/-- Rounding never ends in parts that are no finite number. Packing does, if the exponent is too
large. -/
theorem isFinite_roundWithAccuracy (sign : Sign) (mantissa : Nat) (exponent : Int)
    (accuracy : Accuracy) :
    (roundWithAccuracy .binary64 sign mantissa exponent accuracy).isFinite := by
  unfold roundWithAccuracy
  dsimp only
  split <;> rfl

/-- One place to the right, a mantissa is halved, up to rounding. -/
theorem shiftRight_one_mantissa_le (mantissa : Nat) :
    ((⟨mantissa, false, false⟩ : ExtendedMantissa) >>> 1).roundedMantissa ≤ mantissa / 2 + 1 := by
  show (ExtendedMantissa.mk (mantissa / 2) (mantissa % 2 != 0) false).roundedMantissa ≤ _
  rcases hbit : mantissa % 2 != 0 with _ | _
  · exact Nat.le_succ _
  · show mantissa / 2 + mantissa / 2 % 2 ≤ mantissa / 2 + 1
    omega

/-- Half of a multiple of the least double is rounded to a multiple of it. -/
theorem isStored_round_below (sign : Sign) {mantissa : Nat} (hlt : mantissa < 2 ^ 53) :
    IsStored (roundWithAccuracy .binary64 sign mantissa (-1075) .exact) := by
  have hlog : mantissa.log2 ≤ 52 := by
    rcases Nat.eq_zero_or_pos mantissa with rfl | hpos
    · decide
    · have := (Nat.log2_lt (by omega)).mpr hlt
      omega
  have hfirst : shiftToTargetExponent .binary64 mantissa (-1075) .exact =
      ((⟨mantissa, false, false⟩ : ExtendedMantissa) >>> 1, -1074) := by
    unfold shiftToTargetExponent shiftToExponent
    have htarget : Format.binary64.targetExponent (totalExponent mantissa (-1075)) = -1074 := by
      rw [targetExponent_eq]
      unfold totalExponent
      omega
    rw [htarget]
    rfl
  obtain ⟨rounded, hrounded⟩ :
      ∃ n, ((⟨mantissa, false, false⟩ : ExtendedMantissa) >>> 1).roundedMantissa = n := ⟨_, rfl⟩
  have hle := shiftRight_one_mantissa_le mantissa
  rw [hrounded] at hle
  simp only [roundWithAccuracy, hfirst, hrounded]
  rcases Nat.eq_zero_or_pos rounded with rfl | hpos
  · exact trivial
  · have hcanonical : IsCanonical rounded (-1074) := ⟨by omega, by omega, by omega, .inr rfl⟩
    have hne : rounded ≠ 0 := by omega
    simp only [shiftToTargetExponent_of_isCanonical hcanonical hpos, hne, dite_false]
    exact hcanonical

/-- The product with a half has the same mantissa, one place lower. -/
theorem mul_half (sign : Sign) {mantissa : Nat} {exponent : Int} (hpos : 0 < mantissa)
    (h : IsCanonical mantissa exponent) :
    mul .binary64 (0.5 : Float).toModel.unpack (.finite sign mantissa exponent hpos) =
      roundWithAccuracy .binary64 sign mantissa (exponent - 1) .exact := by
  have hbits : exponent - 1 ≤ Format.binary64.targetExponent
      (totalExponent mantissa (exponent - 1)) := by
    have htarget := h.targetExponent_eq hpos
    rw [targetExponent_eq] at htarget ⊢
    unfold totalExponent at htarget ⊢
    omega
  have hround := roundWithAccuracy_mul sign hpos hbits 52
  have hexponent : -53 + exponent = exponent - 1 - (52 : Nat) := by omega
  rw [unpack_half]
  show roundWithAccuracy .binary64 (.positive * sign) (2 ^ 52 * mantissa) (-53 + exponent)
    .exact = _
  rw [Nat.mul_comm, hexponent, show Sign.positive * sign = sign by cases sign <;> rfl, hround]

/-- Halving a double, the rounded parts are those of a double. -/
theorem isStored_round_half (sign : Sign) {mantissa : Nat} {exponent : Int} (hpos : 0 < mantissa)
    (h : IsCanonical mantissa exponent) :
    IsStored (roundWithAccuracy .binary64 sign mantissa (exponent - 1) .exact) := by
  have hle := h.le_exponent
  have hle' := h.exponent_le
  rcases h.full with hfull | rfl
  · rcases Int.lt_or_eq_of_le hle with hlt | rfl
    · have hlower : IsCanonical mantissa (exponent - 1) :=
        ⟨h.mantissa_lt, by omega, by omega, .inl hfull⟩
      rw [roundWithAccuracy_of_isCanonical sign hpos hlower]
      exact hlower
    · exact isStored_round_below sign h.mantissa_lt
  · exact isStored_round_below sign h.mantissa_lt

/-- Half of a finite double is finite. -/
theorem isFinite_half {x : Float} (h : x.isFinite) : (0.5 * x).isFinite := by
  have hstatus : x.toModel.unpack.isFinite = true := h
  have hstored := isStored_unpack x.toModel
  show (0.5 * x).toModel.unpack.isFinite = true
  rcases hx : x.toModel.unpack with _ | _ | sign | ⟨sign, mantissa, exponent, hpos⟩
  case zero =>
    obtain ⟨sign', hhalf⟩ := IsZero.half ⟨sign, hx⟩
    rw [hhalf]
    rfl
  case finite =>
    have hcanonical : IsCanonical mantissa exponent := by rwa [hx] at hstored
    have hmul := mul_half sign hpos hcanonical
    rw [unpack_mul, hx, hmul]
    · exact isFinite_roundWithAccuracy ..
    · rw [hx, hmul]
      exact isStored_round_half sign hpos hcanonical
  all_goals
    rw [hx] at hstatus
    cases hstatus

/-- Halves of equal finite doubles differ by zero. -/
theorem isZero_halves_sub {x y : Float} (hfinite : x.isFinite) (h : x == y) :
    IsZero (0.5 * x - 0.5 * y) := by
  rcases eq_or_isZero_of_beq h with rfl | ⟨hx, hy⟩
  · exact isZero_sub_self (isFinite_half hfinite)
  · exact hx.half.sub hy.half

end Tradeoff
