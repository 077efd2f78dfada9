import Mathlib
import Tradeoff.Decimal.Shortest

/-!
# The parts of a double

A double is stored as 64 bits. Arithmetic takes it apart into a sign, a mantissa and an exponent
(`unpack`) and stores the parts of the result again (`pack`). Nothing is lost either way: two
doubles with the same parts are one (`eq_of_unpack_eq`), and the parts come back if they are those
of a double at all (`unpack_pack`, `IsStored`).

Changing the sign of a double changes nothing else, so a double is its magnitude with its sign
(`abs_eq_self`, `neg_abs_eq_self`).
-/

namespace Tradeoff

open Float.Model (Format UnpackedFloat)
open Float.Model.UnpackedFloat

/-- The mantissa and the exponent are those of a finite double. The mantissa has 53 bits, or fewer
where the exponent is the least one. -/
structure IsCanonical (mantissa : Nat) (exponent : Int) : Prop where
  /-- The mantissa has at most 53 bits. -/
  mantissa_lt : mantissa < 2 ^ 53
  /-- The exponent is not below the least one. -/
  le_exponent : -1074 ≤ exponent
  /-- The exponent is not above the greatest one. -/
  exponent_le : exponent ≤ 971
  /-- Fewer bits go with the least exponent only. -/
  full : 2 ^ 52 ≤ mantissa ∨ exponent = -1074

/-- The parts are those of a double. -/
def IsStored : UnpackedFloat → Prop
  | .finite _ mantissa exponent _ => IsCanonical mantissa exponent
  | _ => True

/-! ### Fields of bits -/

/-- The mantissa with its leading bit, which is not stored. -/
theorem toNat_append_mantissa (mantissa : BitVec 52) :
    (1#1 ++ mantissa).toNat = 2 ^ 52 + mantissa.toNat := by
  rw [BitVec.toNat_append, ← Nat.shiftLeft_add_eq_or_of_lt mantissa.isLt]
  rfl

theorem log2_eq_of_full {mantissa : Nat} (hlt : mantissa < 2 ^ 53) (hfull : 2 ^ 52 ≤ mantissa) :
    mantissa.log2 = 52 :=
  (Nat.log2_eq_iff (by omega)).mpr ⟨hfull, hlt⟩

theorem log2_lt_of_lt {mantissa : Nat} (hpos : 0 < mantissa) (hlt : mantissa < 2 ^ 52) :
    mantissa.log2 < 52 :=
  (Nat.log2_lt (by omega)).mpr hlt

/-! ### Packing -/

section Pack

variable (sign : Sign) {mantissa : Nat} {exponent : Int} (hpos : 0 < mantissa)

/-- A mantissa of 53 bits is stored without its leading bit. -/
theorem pack_of_full (h : IsCanonical mantissa exponent) (hfull : 2 ^ 52 ≤ mantissa) :
    pack .binary64 (.finite sign mantissa exponent hpos) =
      packComponents .binary64 sign (.ofNat 11 (exponent + 1075).toNat) (.ofNat 52 mantissa) := by
  have hbiased : exponent + (Format.binary64.exponentBias : Nat) +
      (Format.binary64.mantissaBitsWithoutImplicit : Nat) = exponent + 1075 := by
    show exponent + 1023 + 52 = exponent + 1075
    omega
  have hlog := log2_eq_of_full h.mantissa_lt hfull
  have hle := h.exponent_le
  rw [pack]
  simp only [hbiased, hlog]
  rw [if_neg (by omega), if_pos (by rfl : 52 + 1 = Format.binary64.mantissaBits)]

/-- A mantissa of fewer bits is stored as it is, with the exponent field zero. -/
theorem pack_of_lt (hlt : mantissa < 2 ^ 52) :
    pack .binary64 (.finite sign mantissa (-1074) hpos) =
      packComponents .binary64 sign 0#11 (.ofNat 52 mantissa) := by
  have hbiased : (-1074 + (Format.binary64.exponentBias : Nat) +
      (Format.binary64.mantissaBitsWithoutImplicit : Nat) : Int).toNat = 1 := by decide
  have hlog := log2_lt_of_lt hpos hlt
  have hbits : Format.binary64.mantissaBits = 53 := rfl
  rw [pack]
  simp only [hbiased]
  rw [if_neg (by decide), if_neg (by omega)]

end Pack

/-! ### Unpacking -/

section Unpack

variable (sign : Sign) (exponent : BitVec 11) (mantissa : BitVec 52)

/-- An exponent field other than the least and the greatest one. -/
theorem unpack_of_inner (hzero : exponent ≠ 0#11) (hones : exponent ≠ -1#11) :
    ∃ hpos, unpack .binary64 (packComponents .binary64 sign exponent mantissa) =
      .finite sign (2 ^ 52 + mantissa.toNat) (exponent.toNat - 1075) hpos := by
  have hmantissa := toNat_append_mantissa mantissa
  refine ⟨by omega, ?_⟩
  rw [unpack]
  simp only [unpackExponent_packComponents, unpackMantissa_packComponents,
    unpackSign_packComponents, Sign.ofBitVec_toBitVec]
  rw [if_neg hones, if_neg hzero]
  simp only [hmantissa]
  rfl

/-- The exponent field zero and a mantissa. -/
theorem unpack_of_zero (hmantissa : mantissa ≠ 0#52) :
    ∃ hpos, unpack .binary64 (packComponents .binary64 sign 0#11 mantissa) =
      .finite sign mantissa.toNat (-1074) hpos := by
  have hpos : mantissa.toNat ≠ 0 := fun h ↦ hmantissa (BitVec.eq_of_toNat_eq h)
  refine ⟨by omega, ?_⟩
  rw [unpack]
  simp only [unpackExponent_packComponents, unpackMantissa_packComponents,
    unpackSign_packComponents, Sign.ofBitVec_toBitVec]
  rw [if_neg (by decide), if_pos trivial, dif_neg hmantissa]
  rfl

/-- The exponent field of all ones. -/
theorem unpack_of_ones : unpack .binary64 (packComponents .binary64 sign (-1#11) mantissa) =
    if mantissa = 0#52 then .infinity sign else .notANumber := by
  rw [unpack]
  simp only [unpackExponent_packComponents, unpackMantissa_packComponents,
    unpackSign_packComponents, Sign.ofBitVec_toBitVec]
  rw [if_pos trivial]

end Unpack

/-! ### Nothing is lost -/

/-- What a double is unpacked to are the parts of a double. -/
theorem isStored_unpack (x : Float.Model) : IsStored x.unpack := by
  show IsStored (unpack .binary64 x.toBits.toBitVec)
  -- The bits are three fields, of which the one for the exponent says which kind of number it is.
  obtain ⟨sign, exponent, mantissa, hfields⟩ :
      ∃ (sign : Sign) (exponent : BitVec 11) (mantissa : BitVec 52),
        packComponents .binary64 sign exponent mantissa = x.toBits.toBitVec :=
    ⟨_, _, _, packComponents_unpackSign_unpackExponent_unpackMantissa _⟩
  rw [← hfields]
  have hexponent := exponent.isLt
  have hmantissa := mantissa.isLt
  by_cases hones : exponent = -1#11
  · rw [hones, unpack_of_ones]
    split <;> trivial
  by_cases hzero : exponent = 0#11
  · subst hzero
    by_cases hnone : mantissa = 0#52
    · subst hnone
      cases sign <;> exact trivial
    · obtain ⟨hpos, heq⟩ := unpack_of_zero sign mantissa hnone
      rw [heq]
      exact ⟨by omega, by omega, by omega, .inr rfl⟩
  · obtain ⟨hpos, heq⟩ := unpack_of_inner sign exponent mantissa hzero hones
    have hlow : exponent.toNat ≠ 0 := fun h ↦ hzero (BitVec.eq_of_toNat_eq h)
    have hhigh : exponent.toNat ≠ 2047 := fun h ↦ hones (BitVec.eq_of_toNat_eq h)
    rw [heq]
    exact ⟨by omega, by omega, by omega, .inl (by omega)⟩

/-- The parts of a finite double are canonical. -/
theorem isCanonical_of_unpack {x : Float.Model} {sign : Sign} {mantissa : Nat} {exponent : Int}
    {hpos : 0 < mantissa} (h : x.unpack = .finite sign mantissa exponent hpos) :
    IsCanonical mantissa exponent := by
  have hstored := isStored_unpack x
  rwa [h] at hstored

/-- The parts of a double come back when they are stored. -/
theorem unpack_pack {parts : UnpackedFloat} (h : IsStored parts) :
    (Float.Model.pack parts).unpack = parts := by
  show unpack .binary64 (pack .binary64 parts) = parts
  -- Only a finite double is packed with fields of its own; the other ones are constants.
  rcases parts with sign | _ | sign | ⟨sign, mantissa, exponent, hpos⟩
  · cases sign <;> rfl
  · rfl
  · cases sign <;> rfl
  have hcanonical : IsCanonical mantissa exponent := h
  have hlt := hcanonical.mantissa_lt
  by_cases hfull : 2 ^ 52 ≤ mantissa
  -- The exponent field is neither all zeros nor all ones, so that the leading bit comes back.
  · have hle := hcanonical.le_exponent
    have hle' := hcanonical.exponent_le
    have hfield : (BitVec.ofNat 11 (exponent + 1075).toNat).toNat = (exponent + 1075).toNat :=
      Nat.mod_eq_of_lt (by omega)
    have hzero : BitVec.ofNat 11 (exponent + 1075).toNat ≠ 0#11 := fun h ↦ by
      rw [h] at hfield
      have : (0#11).toNat = 0 := rfl
      omega
    have hones : BitVec.ofNat 11 (exponent + 1075).toNat ≠ -1#11 := fun h ↦ by
      rw [h] at hfield
      have : (-1#11).toNat = 2047 := rfl
      omega
    obtain ⟨hpos', heq⟩ := unpack_of_inner sign _ (.ofNat 52 mantissa) hzero hones
    rw [pack_of_full sign hpos hcanonical hfull, heq]
    congr
    · rw [BitVec.toNat_ofNat]
      omega
    · omega
  -- Without the leading bit the exponent is the least one, for which the field is zero.
  · obtain rfl : exponent = -1074 := hcanonical.full.resolve_left hfull
    have hfield : (BitVec.ofNat 52 mantissa).toNat = mantissa := Nat.mod_eq_of_lt (by omega)
    have hmantissa : BitVec.ofNat 52 mantissa ≠ 0#52 := fun h ↦ by
      rw [h] at hfield
      have : (0#52).toNat = 0 := rfl
      omega
    obtain ⟨hpos', heq⟩ := unpack_of_zero sign _ hmantissa
    rw [pack_of_lt sign hpos (by omega), heq]
    congr

/-- Two doubles with the same parts are one. -/
theorem eq_of_unpack_eq {x y : Float} (h : x.toModel.unpack = y.toModel.unpack) : x = y := by
  apply Float.toBits_inj.mp
  apply UInt64.toBitVec_inj.mp
  exact (unpack_inj_of_valid x.toModel.valid y.toModel.valid).mp h

/-! ### Signs -/

/-- The magnitude of a double has the parts without a minus sign. -/
theorem unpack_abs (x : Float) : x.abs.toModel.unpack = x.toModel.unpack.abs := by
  have hstored := isStored_unpack x.toModel
  apply unpack_pack
  revert hstored
  cases x.toModel.unpack <;> exact id

/-- The negation of a double has the parts with the other sign. -/
theorem unpack_neg (x : Float) : (-x).toModel.unpack = x.toModel.unpack.neg := by
  have hstored := isStored_unpack x.toModel
  apply unpack_pack
  revert hstored
  cases x.toModel.unpack <;> exact id

/-- A double without a minus sign is its own magnitude. -/
theorem abs_eq_self {x : Float} (h : carriesMinus x = false) : x.abs = x := by
  apply eq_of_unpack_eq
  rw [unpack_abs]
  unfold carriesMinus at h
  rcases hx : x.toModel.unpack with (_ | _) | _ | (_ | _) | ⟨_ | _, _, _, _⟩ <;>
    first | rfl | (rw [hx] at h; cases h)

/-- A double with a minus sign is its negated magnitude. -/
theorem neg_abs_eq_self {x : Float} (h : carriesMinus x = true) : -x.abs = x := by
  apply eq_of_unpack_eq
  rw [unpack_neg, unpack_abs]
  unfold carriesMinus at h
  rcases hx : x.toModel.unpack with (_ | _) | _ | (_ | _) | ⟨_ | _, _, _, _⟩ <;>
    first | rfl | (rw [hx] at h; cases h)

/-- A magnitude is as finite as the double. -/
theorem isFinite_abs (x : Float) : x.abs.isFinite = x.isFinite := by
  show x.abs.toModel.unpack.isFinite = x.toModel.unpack.isFinite
  rw [unpack_abs]
  cases x.toModel.unpack <;> rfl

theorem isFinite_neg (x : Float) : (-x).isFinite = x.isFinite := by
  show (-x).toModel.unpack.isFinite = x.toModel.unpack.isFinite
  rw [unpack_neg]
  cases x.toModel.unpack <;> rfl

theorem isNaN_neg (x : Float) : (-x).isNaN = x.isNaN := by
  show (-x).toModel.unpack.isNaN = x.toModel.unpack.isNaN
  rw [unpack_neg]
  cases x.toModel.unpack <;> rfl

theorem isNaN_abs (x : Float) : x.abs.isNaN = x.isNaN := by
  show x.abs.toModel.unpack.isNaN = x.toModel.unpack.isNaN
  rw [unpack_abs]
  cases x.toModel.unpack <;> rfl

/-- A finite double is no other kind of double. -/
theorem isNaN_isInf_of_isFinite {x : Float} (h : x.isFinite) :
    x.isNaN = false ∧ x.isInf = false := by
  show x.toModel.unpack.isNaN = false ∧ x.toModel.unpack.isInf = false
  have hstatus : x.toModel.unpack.isFinite = true := h
  rcases hparts : x.toModel.unpack with _ | _ | _ | _ <;> rw [hparts] at hstatus <;>
    first | (cases hstatus; done) | exact ⟨rfl, rfl⟩

theorem isNaN_iff_unpack {x : Float} : x.isNaN ↔ x.toModel.unpack = .notANumber := by
  show x.toModel.unpack.isNaN = true ↔ _
  cases x.toModel.unpack <;> simp [UnpackedFloat.isNaN]

theorem abs_abs (x : Float) : x.abs.abs = x.abs := by
  apply eq_of_unpack_eq
  simp only [unpack_abs]
  cases x.toModel.unpack <;> rfl

end Tradeoff
