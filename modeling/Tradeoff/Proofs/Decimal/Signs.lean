import Tradeoff.Proofs.Decimal.Zeros

/-!
# Signs

Negation is exact: it changes the sign and nothing else, so that a double negated twice is the
double (`neg_neg_float`). Rounding does not look at signs either. The difference of two negated
doubles has the same magnitude as the difference of the doubles (`abs_neg_sub_neg`); only the sign
of a zero may be another one.
-/

namespace Tradeoff

open Float.Model (Format UnpackedFloat)
open Float.Model.UnpackedFloat

/-- Changing the sign twice changes nothing. -/
theorem neg_neg_float (x : Float) : - -x = x := by
  apply eq_of_unpack_eq
  rw [unpack_neg, unpack_neg]
  rcases x.toModel.unpack with sign | _ | sign | ⟨sign, mantissa, exponent, hpos⟩
  case notANumber => rfl
  all_goals cases sign <;> rfl

theorem neg_notANumber : -notANumber = notANumber := by
  apply eq_of_unpack_eq
  rw [unpack_neg, unpack_notANumber]
  rfl

/-! ### Magnitudes of what is packed -/

/-- Parts that are packed with either sign come back with the same magnitude. -/
theorem abs_unpack_packComponents (sign : Sign) (exponent : BitVec 11) (mantissa : BitVec 52) :
    (unpack .binary64 (packComponents .binary64 sign exponent mantissa)).abs =
      unpack .binary64 (packComponents .binary64 .positive exponent mantissa) := by
  by_cases hones : exponent = -1#11
  · rw [hones, unpack_of_ones, unpack_of_ones]
    split <;> rfl
  by_cases hzero : exponent = 0#11
  · subst hzero
    by_cases hnone : mantissa = 0#52
    · subst hnone
      cases sign <;> rfl
    · obtain ⟨_, heq⟩ := unpack_of_zero sign mantissa hnone
      obtain ⟨_, heq'⟩ := unpack_of_zero .positive mantissa hnone
      rw [heq, heq']
      rfl
  · obtain ⟨_, heq⟩ := unpack_of_inner sign exponent mantissa hzero hones
    obtain ⟨_, heq'⟩ := unpack_of_inner .positive exponent mantissa hzero hones
    rw [heq, heq']
    rfl

/-- The sign is packed in a field of its own. -/
theorem exists_packComponents (mantissa : Nat) (exponent : Int) (hpos : 0 < mantissa) :
    ∃ biased stored, ∀ sign, pack .binary64 (.finite sign mantissa exponent hpos) =
      packComponents .binary64 sign biased stored := by
  simp only [pack]
  split
  · exact ⟨_, _, fun _ ↦ rfl⟩
  · split <;> exact ⟨_, _, fun _ ↦ rfl⟩

/-- So the magnitude can be taken before packing or after it. -/
theorem abs_ofModel_pack (parts : UnpackedFloat) :
    (Float.ofModel (.pack parts)).abs = .ofModel (.pack parts.abs) := by
  apply eq_of_unpack_eq
  rw [unpack_abs]
  show (unpack .binary64 (pack .binary64 parts)).abs = unpack .binary64 (pack .binary64 parts.abs)
  rcases parts with sign | _ | sign | ⟨sign, mantissa, exponent, hpos⟩
  case notANumber => rfl
  case finite =>
    obtain ⟨biased, stored, hpack⟩ := exists_packComponents mantissa exponent hpos
    show _ = unpack .binary64 (pack .binary64 (.finite .positive mantissa exponent hpos))
    rw [hpack, hpack, abs_unpack_packComponents]
  all_goals cases sign <;> rfl

/-! ### Magnitudes of differences -/

/-- Rounding keeps the sign and does not depend on it. -/
theorem abs_round (sign : Sign) (mantissa : Nat) (exponent : Int) :
    (UnpackedFloat.round .binary64 sign mantissa exponent).abs =
      UnpackedFloat.round .binary64 .positive mantissa exponent := by
  unfold UnpackedFloat.round roundWithAccuracy
  dsimp only
  split <;> rfl

/-- A negated sum of parts has the same magnitude, also where it is zero. -/
theorem abs_normalize_neg (mantissa exponent : Int) (zeroSign : Sign) :
    (UnpackedFloat.normalize .binary64 (-mantissa) exponent zeroSign).abs =
      (UnpackedFloat.normalize .binary64 mantissa exponent zeroSign).abs := by
  have hcompare : compare (-mantissa) 0 = (compare mantissa 0).swap := compare_neg mantissa 0
  rw [UnpackedFloat.normalize, UnpackedFloat.normalize, hcompare]
  cases compare mantissa 0 with
  | eq => rfl
  | lt => exact (abs_round _ _ _).trans (abs_round _ _ _).symm
  | gt =>
    refine (abs_round _ _ _).trans ?_
    rw [Int.neg_neg]
    exact (abs_round _ _ _).symm

theorem apply_neg (sign : Sign) (n : Nat) : (-sign).apply (n : Int) = -sign.apply (n : Int) := by
  cases sign with
  | positive => rfl
  | negative => exact (Int.neg_neg _).symm

/-- Without signs, the difference is the same after both are negated. -/
theorem abs_sub_neg (a b : UnpackedFloat) :
    (sub .binary64 a.neg b.neg).abs = (sub .binary64 a b).abs := by
  rcases a with sign | _ | sign | ⟨sign, mantissa, exponent, hpos⟩ <;>
    rcases b with sign' | _ | sign' | ⟨sign', mantissa', exponent', hpos'⟩
  case finite.finite =>
    have hneg (i j : Int) : -i - -j = -(i - j) := by omega
    simp only [UnpackedFloat.neg, UnpackedFloat.sub, apply_neg, hneg]
    exact abs_normalize_neg _ _ _
  all_goals first | rfl | (cases sign <;> cases sign' <;> rfl)

/-- The magnitude of a difference does not depend on the signs of both. -/
theorem abs_neg_sub_neg (x y : Float) : (-x - -y).abs = (x - y).abs := by
  show (Float.ofModel (.pack (sub .binary64 (-x).toModel.unpack (-y).toModel.unpack))).abs =
    (Float.ofModel (.pack (sub .binary64 x.toModel.unpack y.toModel.unpack))).abs
  rw [abs_ofModel_pack, abs_ofModel_pack, unpack_neg, unpack_neg, abs_sub_neg]

end Tradeoff
