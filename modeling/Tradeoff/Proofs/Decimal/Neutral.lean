import Tradeoff.Environment
import Tradeoff.Proofs.Decimal.Rounding

/-!
# Neutral and absorbing doubles

Sums start from negative zero and products from one, because these change nothing: negative zero
added to a double gives that double, and so does one multiplied by it (`negZero_add`,
`oneTimes`). This holds bit for bit, for the zeros and the infinities as well.

What is not a number is not one in any sum or product either (`isNaN_foldl`), and there is just one
such double (`eq_notANumber`).
-/

namespace Tradeoff

open Float.Model (Format UnpackedFloat)
open Float.Model.UnpackedFloat

/-! ### The double that is not a number -/

theorem unpack_notANumber : notANumber.toModel.unpack = .notANumber :=
  isNaN_iff_unpack.mp (by decide +kernel)

/-- All doubles that are not a number are one. -/
theorem eq_notANumber {x : Float} (h : x.isNaN) : x = notANumber := by
  apply eq_of_unpack_eq
  rw [isNaN_iff_unpack.mp h, unpack_notANumber]

/-! ### Sums and products by their parts -/

/-- A sum has the added parts, if these are those of a double. -/
theorem unpack_add {x y : Float}
    (h : IsStored (add .binary64 x.toModel.unpack y.toModel.unpack)) :
    (x + y).toModel.unpack = add .binary64 x.toModel.unpack y.toModel.unpack := unpack_pack h

/-- A product has the multiplied parts, if these are those of a double. -/
theorem unpack_mul {x y : Float}
    (h : IsStored (mul .binary64 x.toModel.unpack y.toModel.unpack)) :
    (x * y).toModel.unpack = mul .binary64 x.toModel.unpack y.toModel.unpack := unpack_pack h

/-! ### Neutral doubles -/

theorem unpack_negZero : (-0.0 : Float).toModel.unpack = .zero .negative := by
  rw [unpack_neg]
  rfl

/-- Negative zero is neutral for sums, from the left. -/
theorem negZero_add (x : Float) : -0.0 + x = x := by
  have hparts :
      add .binary64 (-0.0 : Float).toModel.unpack x.toModel.unpack = x.toModel.unpack := by
    rw [unpack_negZero]
    rcases x.toModel.unpack with (_ | _) | _ | (_ | _) | ⟨_, _, _, _⟩ <;> rfl
  apply eq_of_unpack_eq
  rw [unpack_add, hparts]
  rw [hparts]
  exact isStored_unpack x.toModel

theorem unpack_one :
    (1 : Float).toModel.unpack = .finite .positive (2 ^ 52) (-52) (Nat.two_pow_pos 52) := by
  rfl

/-- One is neutral for products, from the left. -/
theorem oneTimes (x : Float) : 1 * x = x := by
  have hparts : mul .binary64 (1 : Float).toModel.unpack x.toModel.unpack = x.toModel.unpack := by
    have hstored := isStored_unpack x.toModel
    rw [unpack_one]
    revert hstored
    rcases x.toModel.unpack with (_ | _) | _ | (_ | _) | ⟨sign, mantissa, exponent, hpos⟩
    case finite =>
      intro hcanonical
      have hbits := Int.le_of_eq (IsCanonical.targetExponent_eq hcanonical hpos).symm
      have hround := roundWithAccuracy_mul sign hpos hbits 52
      have hexponent : -52 + exponent = exponent - (52 : Nat) := by omega
      show roundWithAccuracy .binary64 (.positive * sign) (2 ^ 52 * mantissa) (-52 + exponent)
        .exact = _
      rw [Nat.mul_comm, hexponent, show Sign.positive * sign = sign by cases sign <;> rfl, hround]
      exact roundWithAccuracy_of_isCanonical sign hpos hcanonical
    all_goals exact fun _ ↦ rfl
  apply eq_of_unpack_eq
  rw [unpack_mul, hparts]
  rw [hparts]
  exact isStored_unpack x.toModel

/-! ### What is not a number in sums and products -/

/-- What is not a number is none in a sum. -/
theorem isNaN_add {x y : Float} (h : x.isNaN ∨ y.isNaN) : (x + y).isNaN := by
  have hparts : add .binary64 x.toModel.unpack y.toModel.unpack = .notANumber := by
    rcases h with hx | hy
    · rw [isNaN_iff_unpack.mp hx]
      rfl
    · rw [isNaN_iff_unpack.mp hy]
      cases x.toModel.unpack <;> rfl
  rw [isNaN_iff_unpack, unpack_add, hparts]
  rw [hparts]
  trivial

theorem isNaN_mul {x y : Float} (h : x.isNaN ∨ y.isNaN) : (x * y).isNaN := by
  have hparts : mul .binary64 x.toModel.unpack y.toModel.unpack = .notANumber := by
    rcases h with hx | hy
    · rw [isNaN_iff_unpack.mp hx]
      rfl
    · rw [isNaN_iff_unpack.mp hy]
      cases x.toModel.unpack <;> rfl
  rw [isNaN_iff_unpack, unpack_mul, hparts]
  rw [hparts]
  trivial

/-- What is not a number stays so if it is combined with doubles one after another, and so does
everything it is combined with. -/
theorem isNaN_foldl {f : Float → Float → Float}
    (hf : ∀ {x y : Float}, x.isNaN ∨ y.isNaN → (f x y).isNaN) {args : List Float} {start : Float}
    (h : start.isNaN ∨ ∃ arg ∈ args, arg.isNaN) : (args.foldl f start).isNaN := by
  induction args generalizing start with
  | nil => exact h.elim id fun ⟨_, hmem, _⟩ ↦ absurd hmem List.not_mem_nil
  | cons arg args ih =>
    refine ih ?_
    rcases h with hstart | ⟨other, hmem, hother⟩
    · exact .inl (hf (.inl hstart))
    · rcases List.mem_cons.mp hmem with rfl | hmem
      · exact .inl (hf (.inr hother))
      · exact .inr ⟨other, hmem, hother⟩

end Tradeoff
