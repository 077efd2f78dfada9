import Tradeoff.Evaluation.Arithmetic
import Tradeoff.Proofs.Decimal.Neutral
import Tradeoff.Proofs.Decimal.Order
import Tradeoff.Proofs.Decimal.ReadBack

/-!
# Whole numbers as indices

A whole number below two to the power of 53 is a double, and the double is that whole number again
(`toUInt64_ofNat`). So the doubles that stand for whole numbers name the components of a vector one
after another (`offset?_ofNat`).
-/

namespace Tradeoff

open Float.Model (UnpackedFloat)
open Float.Model.UnpackedFloat

/-! ### Products with one -/

theorem mul_comm_unpacked (a b : UnpackedFloat) : mul .binary64 a b = mul .binary64 b a := by
  rcases a with (_ | _) | _ | (_ | _) | ⟨s, m, e, _⟩ <;>
    rcases b with (_ | _) | _ | (_ | _) | ⟨t, n, f, _⟩ <;> try rfl
  all_goals first | (cases s <;> rfl) | (cases t <;> rfl) | skip
  show roundWithAccuracy .binary64 (s * t) (m * n) (e + f) .exact =
    roundWithAccuracy .binary64 (t * s) (n * m) (f + e) .exact
  rw [Nat.mul_comm, Int.add_comm, show s * t = t * s by cases s <;> cases t <;> rfl]

theorem timesOne (x : Float) : x * 1 = x := by
  have hcomm : x * 1 = 1 * x :=
    congrArg (fun parts ↦ Float.ofModel (.pack parts)) (mul_comm_unpacked _ _)
  rw [hcomm, oneTimes]

/-! ### Whole numbers of at most 53 bits -/

/-- A short whole number is read as it is stored. -/
theorem ofNat_eq_toFloat {n : Nat} (hlt : n < 2 ^ 53) : Float.ofNat n = n.toUInt64.toFloat := by
  have hread : Float.ofNat n = Decimal.toFloat ⟨n, 0⟩ := rfl
  have hone : Float.exactlyRepresentablePowersOfTen[(⟨0, by decide⟩ : Fin 23)] = 1 := by
    decide +kernel
  rw [hread, show (0 : Int) = ((0 : Nat) : Int) from rfl, toFloat_natCast,
    dif_pos ⟨hlt, by omega⟩, hone, timesOne]

namespace StoresWhole

variable {x : Float} {n : Nat}

/-- The mantissa is the whole number with zeros after it. -/
theorem exists_shift (h : StoresWhole x n) (hlt : n < 2 ^ 53) :
    ∃ (k : Nat) (hpos : 0 < n * 2 ^ k), k ≤ 52 ∧ 2 ^ 52 ≤ n * 2 ^ k ∧
      x.toModel.unpack = .finite .positive (n * 2 ^ k) (-k) hpos := by
  obtain ⟨mantissa, exponent, hpos, hparts, hwhole⟩ := h
  have hcanonical := isCanonical_of_unpack hparts
  have hfull := hwhole.full_of_isCanonical hcanonical
  have hle := hwhole.le_exponent
  obtain ⟨j, rfl⟩ : ∃ j : Nat, exponent = j - 53 := ⟨(exponent + 53).toNat, by omega⟩
  have hvalue : mantissa * 2 ^ j = n * 2 ^ 53 := by
    have hvalue := hwhole.value_eq
    rwa [show (((j : Int) - 53) + 53).toNat = j by omega] at hvalue
  have hpositive := hwhole.pos hpos
  have hlow : 0 < j := by
    rcases Nat.eq_zero_or_pos j with rfl | hj
    · have hlt := hcanonical.mantissa_lt
      omega
    · exact hj
  -- With more than 53 bits before the point the number would not be so short.
  have hhigh : j ≤ 53 := by
    refine Nat.le_of_not_lt fun hj ↦ ?_
    have hmore : 2 ^ 52 * 2 ^ 54 ≤ mantissa * 2 ^ j :=
      Nat.mul_le_mul hfull (Nat.pow_le_pow_right (by decide) hj)
    omega
  have hmantissa : mantissa = n * 2 ^ (53 - j) := by
    refine Nat.eq_of_mul_eq_mul_right (Nat.two_pow_pos j) ?_
    rw [hvalue, Nat.mul_assoc, ← Nat.pow_add, Nat.sub_add_cancel hhigh]
  subst hmantissa
  refine ⟨53 - j, hpos, by omega, hfull, ?_⟩
  rw [hparts]
  congr 1
  omega

theorem isNaN_eq_false (h : StoresWhole x n) : x.isNaN = false := by
  obtain ⟨mantissa, exponent, hpos, hparts, -⟩ := h
  show x.toModel.unpack.isNaN = false
  rw [hparts]
  rfl

theorem one_le (h : StoresWhole x n) (hlt : n < 2 ^ 53) : 1 ≤ x := by
  obtain ⟨k, hpos, hk, hfull, hparts⟩ := h.exists_shift hlt
  refine le_iff.mpr ⟨by decide +kernel, h.isNaN_eq_false, ?_⟩
  rw [placeOf, placeOf, unpack_one, hparts]
  simp only [place, Sign.apply]
  omega

/-- The whole number that a double stands for is the one it stores. -/
theorem toUInt64_eq (h : StoresWhole x n) (hlt : n < 2 ^ 53) : x.toUInt64 = n.toUInt64 := by
  obtain ⟨k, hpos, hk, hfull, hparts⟩ := h.exists_shift hlt
  have hround : roundToInt .positive (n * 2 ^ k) (-k) = n := by
    unfold roundToInt decreaseExponent shiftToExponent
    have hnone : (-(k : Int) - 0).toNat = 0 := by omega
    have hamount : (0 - (-(k : Int) - (0 : Nat))).toNat = k := by omega
    simp only [hnone, hamount, Nat.shiftLeft_zero, ExtendedMantissa.ofMantissaAndAccuracy,
      shiftRight_mul, Sign.apply]
  have hsize : n < UInt64.size := Nat.lt_trans hlt (by decide)
  show UInt64.ofNatClamp (toInt 0 _ x.toModel.unpack).toNat = _
  rw [hparts, toInt, hround, Int.toNat_natCast, UInt64.ofNatClamp, dif_pos hsize]
  exact UInt64.ofNatLT_eq_ofNat n

end StoresWhole

theorem storesWhole_ofNat {n : Nat} (hpos : 0 < n) (hlt : n < 2 ^ 53) :
    StoresWhole (Float.ofNat n) n := by
  rw [ofNat_eq_toFloat hlt]
  exact storesWhole_toFloat hpos hlt

/-- A double that is equal to a whole number other than zero is this number. -/
theorem eq_ofNat_of_beq {x : Float} {n : Nat} (hpos : 0 < n) (hlt : n < 2 ^ 53)
    (h : x == Float.ofNat n) : x = Float.ofNat n := by
  obtain ⟨hx, hn, hplace⟩ := beq_iff.mp h
  rcases eq_or_zeros_of_place_eq (isStored_unpack _) (isStored_unpack _) hx hn hplace with
    hparts | ⟨-, sign, hzero⟩
  · exact eq_of_unpack_eq hparts
  · obtain ⟨mantissa, exponent, _, hparts, -⟩ := storesWhole_ofNat hpos hlt
    cases hparts.symm.trans hzero

/-! ### The whole part -/

theorem mantissa_shiftRight (mantissa k : Nat) :
    ((⟨mantissa, false, false⟩ : ExtendedMantissa) >>> k).mantissa = mantissa / 2 ^ k := by
  induction k with
  | zero => simp [HShiftRight.hShiftRight, Nat.repeat]
  | succ k ih =>
    rw [shiftRight_add, Nat.pow_succ, ← Nat.div_div_eq_div_mul, ← ih]
    rfl

/-- Of a mantissa of 53 bits something is left before the point if no more than 52 of its bits are
after it. -/
theorem roundToInt_pos {mantissa : Nat} {exponent : Int} (hfull : 2 ^ 52 ≤ mantissa)
    (hle : -52 ≤ exponent) : 0 < roundToInt .positive mantissa exponent := by
  have hround : roundToInt .positive mantissa exponent =
      (mantissa * 2 ^ exponent.toNat / 2 ^ (-exponent).toNat : Nat) := by
    unfold roundToInt decreaseExponent shiftToExponent
    have hamount : (0 - (exponent - exponent.toNat)).toNat = (-exponent).toNat := by omega
    simp only [Int.sub_zero, hamount, ExtendedMantissa.ofMantissaAndAccuracy, Nat.shiftLeft_eq,
      mantissa_shiftRight, Sign.apply]
  rw [hround, Int.natCast_pos]
  refine Nat.div_pos ?_ (Nat.two_pow_pos _)
  calc 2 ^ (-exponent).toNat ≤ 2 ^ 52 := Nat.pow_le_pow_right (by decide) (by omega)
    _ ≤ mantissa := hfull
    _ ≤ mantissa * 2 ^ exponent.toNat := Nat.le_mul_of_pos_right _ (Nat.two_pow_pos _)

/-- The whole part of a double from one on is not zero, whether it is finite or not. -/
theorem toUInt64_pos {x : Float} (h : 1 ≤ x) : 0 < x.toUInt64.toNat := by
  have hpart : 0 < (toInt 0 (UInt64.size - 1) x.toModel.unpack).toNat := by
    obtain ⟨-, -, hplace⟩ := le_iff.mp h
    rw [placeOf, placeOf, unpack_one] at hplace
    rcases hparts : x.toModel.unpack with (_ | _) | _ | (_ | _) | ⟨_ | _, mantissa, exponent, hpos⟩
    case finite.positive =>
      have hcanonical := isCanonical_of_unpack hparts
      have hlt := hcanonical.mantissa_lt
      rw [hparts] at hplace
      simp only [place, Sign.apply] at hplace
      have hexponent : -52 ≤ exponent := by omega
      have hfull : 2 ^ 52 ≤ mantissa := hcanonical.full.resolve_right (by omega)
      exact Int.lt_toNat.mpr (roundToInt_pos hfull hexponent)
    case finite.negative =>
      have hbounds := (isCanonical_of_unpack hparts).place_bounds hpos
      rw [hparts] at hplace
      simp only [place, Sign.apply] at hplace
      omega
    case infinity.positive => decide
    all_goals
      rw [hparts] at hplace
      simp only [place, Sign.apply] at hplace
      omega
  show 0 < (UInt64.ofNatClamp (toInt 0 (UInt64.size - 1) x.toModel.unpack).toNat).toNat
  generalize (toInt 0 (UInt64.size - 1) x.toModel.unpack).toNat = whole at hpart ⊢
  unfold UInt64.ofNatClamp
  split
  · exact hpart
  · decide


/-! ### Indices -/

/-- A short whole number from one on names a component. -/
theorem offset?_ofNat {n : Nat} (hpos : 0 < n) (hlt : n < 2 ^ 53) :
    offset? (Float.ofNat n) = some (n - 1) := by
  have hstores := storesWhole_ofNat hpos hlt
  have hback := hstores.toUInt64_eq hlt
  have hsame : Float.ofNat n == Float.ofNat n :=
    beq_iff.mpr ⟨hstores.isNaN_eq_false, hstores.isNaN_eq_false, rfl⟩
  have htoNat : n.toUInt64.toNat = n := Nat.mod_eq_of_lt (by omega)
  unfold offset?
  rw [hback, ← ofNat_eq_toFloat hlt, hsame, decide_eq_true (hstores.one_le hlt), htoNat]
  rfl

/-- The index of a component is equal to a whole number; what is not a number, infinite or between
whole numbers names none. -/
theorem offset?_eq_some_iff {index : Float} {offset : Nat} (hlt : offset + 1 < 2 ^ 53) :
    offset? index = some offset ↔ index == Float.ofNat (offset + 1) := by
  constructor
  · intro h
    unfold offset? at h
    split at h
    · next hguard =>
      obtain ⟨hone, hwhole⟩ := Bool.and_eq_true_iff.mp hguard
      have hpos := toUInt64_pos (of_decide_eq_true hone)
      have hoffset : index.toUInt64.toNat - 1 = offset := Option.some.inj h
      have hindex : index.toUInt64 = (offset + 1).toUInt64 := by
        refine UInt64.toNat_inj.mp (Eq.trans ?_ (Nat.mod_eq_of_lt (by omega)).symm)
        omega
      obtain ⟨hnumber, hnumber', hplace⟩ := beq_iff.mp hwhole
      rw [ofNat_eq_toFloat hlt, ← hindex]
      exact beq_iff.mpr ⟨hnumber', hnumber, hplace.symm⟩
    · cases h
  · intro h
    rw [eq_ofNat_of_beq (Nat.succ_pos offset) hlt h, offset?_ofNat (Nat.succ_pos offset) hlt]
    rfl

end Tradeoff
