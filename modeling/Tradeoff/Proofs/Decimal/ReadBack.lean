import Tradeoff.Proofs.Decimal.Rounding

/-!
# Decimals that read back

The shortest decimal of a double reads back to the double (`toFloat_shortest`): every candidate of
the search was tested, and the decimal with all digits denotes the double exactly (`toFloat_exact`).

A decimal is read in one of two ways, as a product or a quotient of two stored whole numbers if it
is short and otherwise from its value. Both give the double nearest to its value, which for a whole
number is `nearestWhole` (`toFloat_of_nonneg`).
-/

namespace Tradeoff

open Float.Model (Format UnpackedFloat totalExponent)
open Float.Model.UnpackedFloat

/-! ### The factors of a short decimal -/

/-- The double is stored with the mantissa and the exponent of a whole number. -/
def StoresWhole (x : Float) (n : Nat) : Prop :=
  ∃ mantissa exponent hpos,
    x.toModel.unpack = .finite .positive mantissa exponent hpos ∧ IsWhole n mantissa exponent

/-- Whether the double is stored with the mantissa and the exponent of a whole number. -/
def storesWhole (x : Float) (n : Nat) : Bool :=
  match x.toModel.unpack with
  | .finite .positive mantissa exponent _ =>
    -53 ≤ exponent && mantissa * 2 ^ (exponent + 53).toNat == n * 2 ^ 53
  | _ => false

theorem StoresWhole.of_eq_true {x : Float} {n : Nat} (h : storesWhole x n = true) :
    StoresWhole x n := by
  unfold storesWhole at h
  split at h
  · next mantissa exponent hpos hparts =>
    simp only [Bool.and_eq_true, decide_eq_true_eq, beq_iff_eq] at h
    exact ⟨mantissa, exponent, hpos, hparts, h.1, h.2⟩
  · cases h

theorem storesWhole_powerOfTen (k : Fin 23) :
    StoresWhole Float.exactlyRepresentablePowersOfTen[k] (10 ^ k.val) := by
  have hall : ∀ k : Fin 23,
      storesWhole Float.exactlyRepresentablePowersOfTen[k] (10 ^ k.val) = true := by
    decide +kernel
  exact .of_eq_true (hall k)

/-- A whole number of at most 53 bits is stored exactly. -/
theorem storesWhole_toFloat {n : Nat} (hpos : 0 < n) (hlt : n < 2 ^ 53) :
    StoresWhole n.toUInt64.toFloat n := by
  have hlog : n.log2 < 53 := (Nat.log2_lt (by omega)).mpr hlt
  -- The number is shifted up until its leading bit is the first of 53.
  generalize hshift : 52 - n.log2 = shift
  have hmantissa : 2 ^ 52 ≤ n * 2 ^ shift ∧ n * 2 ^ shift < 2 ^ 53 := by
    have hne : n * 2 ^ shift ≠ 0 := Nat.mul_ne_zero (by omega) (Nat.ne_of_gt (Nat.two_pow_pos _))
    refine (Nat.log2_eq_iff hne).mp ?_
    rw [log2_mul_two_pow hpos]
    omega
  have hcanonical : IsCanonical (n * 2 ^ shift) (-shift) :=
    ⟨hmantissa.2, by omega, by omega, .inl hmantissa.1⟩
  have hparts : ofUInt64 .binary64 n.toUInt64 =
      .finite .positive (n * 2 ^ shift) (-shift) (by omega) := by
    have htoNat : n.toUInt64.toNat = n := Nat.mod_eq_of_lt (by omega)
    have hcompare : compare (n : Int) 0 = .gt := by
      rw [Int.compare_eq_gt]
      omega
    have hamount : (-Format.binary64.targetExponent (totalExponent n 0)).toNat = shift := by
      rw [targetExponent_eq]
      unfold totalExponent
      omega
    unfold ofUInt64 ofNat ofInt UnpackedFloat.normalize UnpackedFloat.round decreaseExponent
    simp only [htoNat, hcompare, Int.toNat_natCast, Int.zero_sub, hamount, Nat.shiftLeft_eq]
    exact roundWithAccuracy_of_isCanonical _ _ hcanonical
  refine ⟨n * 2 ^ shift, -shift, by omega, ?_, by omega, ?_⟩
  · show (Float.Model.pack (ofUInt64 .binary64 n.toUInt64)).unpack = _
    rw [hparts]
    exact unpack_pack hcanonical
  · rw [Nat.mul_assoc, ← Nat.pow_add]
    congr 2
    omega

/-! ### Whole numbers -/

/-- The mantissa of a stored whole number has 53 bits. -/
theorem IsWhole.full_of_isCanonical {n mantissa : Nat} {exponent : Int}
    (h : IsWhole n mantissa exponent) (hcanonical : IsCanonical mantissa exponent) :
    2 ^ 52 ≤ mantissa := by
  have hle := h.le_exponent
  rcases hcanonical.full with hfull | hleast
  · exact hfull
  · omega

/-- The product of two stored whole numbers is the double nearest to their product. -/
theorem StoresWhole.mul {x y : Float} {m n : Nat} (hx : StoresWhole x m) (hy : StoresWhole y n) :
    x * y = nearestWhole (m * n) := by
  obtain ⟨mantissa, exponent, hpos, hparts, hwhole⟩ := hx
  obtain ⟨mantissa', exponent', hpos', hparts', hwhole'⟩ := hy
  have hbits := hwhole.full_of_isCanonical (isCanonical_of_unpack hparts)
  show Float.ofModel (.pack (UnpackedFloat.mul .binary64 x.toModel.unpack y.toModel.unpack)) = _
  rw [hparts, hparts', nearestWhole, ← roundWithAccuracy_product hwhole hwhole' hpos' hbits]
  rfl

/-- Only exponents out of all proportion are cut off. -/
theorem ofScientific_of_natAbs_le {n : Nat} {e : Int} (hpos : 0 < n) (he : e.natAbs ≤ 2048) :
    ofScientific .binary64 n e =
      if 0 ≤ e then
        mul .binary64
          (.finite .positive (n <<< 53) (-53) (by simpa [Nat.shiftLeft_eq] using hpos))
          (.finite .positive (10 ^ e.toNat) 0 (Nat.pow_pos (by decide)))
      else
        div .binary64 (.finite .positive n 0 hpos)
          (.finite .positive (10 ^ (-e).toNat) 0 (Nat.pow_pos (by decide))) := by
  have hlarge : ¬ (e > 2 ^ Format.binary64.exponentBits) := by
    show ¬ (e > 2048)
    omega
  have hsmall : ¬ (e < -(2 ^ Format.binary64.exponentBits + (n.log2 : Int))) := by
    show ¬ (e < -(2048 + (n.log2 : Int)))
    omega
  rw [ofScientific, dif_neg (by omega), if_neg hlarge, if_neg hsmall]
  rfl

theorem ofScientific_of_nonneg {n k : Nat} (hpos : 0 < n) (hk : k ≤ 2048) :
    ofScientific .binary64 n (k : Int) =
      roundWithAccuracy .binary64 .positive (n * 10 ^ k * 2 ^ 53) (-53) .exact := by
  rw [ofScientific_of_natAbs_le hpos (by omega), if_pos (by omega)]
  have hwhole : IsWhole n (n <<< 53) (-53) := ⟨Int.le_refl _, by simp [Nat.shiftLeft_eq]⟩
  have hpower : IsWhole (10 ^ k) (10 ^ k) 0 := ⟨by omega, rfl⟩
  have hbits : 2 ^ 52 ≤ n <<< 53 := by
    rw [Nat.shiftLeft_eq]
    omega
  exact roundWithAccuracy_product hwhole hpower (Nat.pow_pos (by decide)) hbits

/-- A short decimal without places is read as a product of two stored whole numbers, any other one
from its value. -/
theorem toFloat_natCast (n k : Nat) :
    Decimal.toFloat ⟨n, k⟩ =
      if h : n < 2 ^ 53 ∧ k ≤ 22 then
        n.toUInt64.toFloat * Float.exactlyRepresentablePowersOfTen[(⟨k, by omega⟩ : Fin 23)]
      else .ofModel (.pack (ofScientific .binary64 n (k : Int))) := by
  have hsign : decide ((k : Int) < 0) = false := by simp
  simp only [Decimal.toFloat, hsign, Int.natAbs_natCast, Float.ofScientific, Bool.false_eq_true,
    if_false]
  rfl

/-- A decimal without places reads as the double nearest to its value, whatever its exponent. -/
theorem toFloat_of_nonneg {n k : Nat} (hpos : 0 < n) (hk : k ≤ 2048) :
    Decimal.toFloat ⟨n, k⟩ = nearestWhole (n * 10 ^ k) := by
  rw [toFloat_natCast]
  split
  · next hshort =>
    exact (storesWhole_toFloat hpos hshort.1).mul (storesWhole_powerOfTen ⟨k, by omega⟩)
  · rw [ofScientific_of_nonneg hpos hk, nearestWhole]

/-! ### All digits of a double -/

/-- The quotient that all the digits after the point denote. -/
theorem div_of_isWhole {m j n n' : Nat} {e e' : Int} (hm : 0 < m) (hn : 0 < n) (hn' : 0 < n')
    (hcanonical : IsCanonical m (-j)) (h : IsWhole (m * 5 ^ j) n e) (h' : IsWhole (10 ^ j) n' e') :
    div .binary64 (.finite .positive n e hn) (.finite .positive n' e' hn') =
      .finite .positive m (-j) hm := by
  have hle := h.le_exponent
  have hle' := h'.le_exponent
  have hvalue : n * 2 ^ ((e + 53).toNat + j) = m * n' * 2 ^ (e' + 53).toNat := by
    calc n * 2 ^ ((e + 53).toNat + j)
        = n * 2 ^ (e + 53).toNat * 2 ^ j := by rw [Nat.pow_add, Nat.mul_assoc]
      _ = m * (5 ^ j * 2 ^ j * 2 ^ 53) := by
          rw [h.value_eq]
          ac_rfl
      _ = m * (n' * 2 ^ (e' + 53).toNat) := by rw [h'.value_eq, ← Nat.mul_pow]
      _ = m * n' * 2 ^ (e' + 53).toNat := by rw [Nat.mul_assoc]
  exact div_eq_of_isCanonical .positive .positive hn hn' hm hcanonical hvalue (by omega)

/-- The digits of a double with places after the point read back to it. -/
theorem toFloat_exact_of_neg {m j : Nat} (hm : 0 < m) (hj : 0 < j)
    (hcanonical : IsCanonical m (-j)) :
    Decimal.toFloat ⟨m * 5 ^ j, -j⟩ = .ofModel (.pack (.finite .positive m (-j) hm)) := by
  have hle := hcanonical.le_exponent
  have hpos : 0 < m * 5 ^ j := Nat.mul_pos hm (Nat.pow_pos (by decide))
  have hsign : decide (-(j : Int) < 0) = true := by
    rw [decide_eq_true_eq]
    omega
  simp only [Decimal.toFloat, hsign, Int.natAbs_neg, Int.natAbs_natCast, Float.ofScientific,
    if_true]
  split
  -- The digits and the power of ten are stored exactly, whatever mantissas they have.
  · next hshort =>
    obtain ⟨n, e, hn, hparts, hwhole⟩ := storesWhole_toFloat hpos hshort.1
    obtain ⟨n', e', hn', hparts', hwhole'⟩ := storesWhole_powerOfTen ⟨j, by omega⟩
    have hquotient := div_of_isWhole hm hn hn' hcanonical hwhole hwhole'
    rw [← hparts, ← hparts'] at hquotient
    exact congrArg (fun parts ↦ Float.ofModel (.pack parts)) hquotient
  -- Too long for that, the quotient is taken of the whole numbers themselves.
  · have hwhole : IsWhole (m * 5 ^ j) (m * 5 ^ j) 0 := ⟨by omega, rfl⟩
    have hpower : IsWhole (10 ^ j) (10 ^ j) 0 := ⟨by omega, rfl⟩
    have hquotient := div_of_isWhole hm hpos (Nat.pow_pos (by decide)) hcanonical hwhole hpower
    have hexponent : Int.negOfNat j = -(j : Int) := Int.negOfNat_eq
    have hslow :
        ofScientific .binary64 (m * 5 ^ j) (Int.negOfNat j) = .finite .positive m (-j) hm := by
      rw [hexponent, ofScientific_of_natAbs_le hpos (by omega), if_neg (by omega)]
      simpa only [Int.neg_neg, Int.toNat_natCast] using hquotient
    exact congrArg (fun parts ↦ Float.ofModel (.pack parts)) hslow

/-- All the digits of a double read back to it. -/
theorem toFloat_exact {mantissa : Nat} {exponent : Int} (hpos : 0 < mantissa)
    (hcanonical : IsCanonical mantissa exponent) :
    Decimal.toFloat (.exact mantissa exponent) =
      .ofModel (.pack (.finite .positive mantissa exponent hpos)) := by
  unfold Decimal.exact
  rcases Int.lt_or_le exponent 0 with hneg | hnonneg
  -- A power of a half is a power of five over one of ten.
  · obtain ⟨j, rfl⟩ : ∃ j : Nat, exponent = -j := ⟨(-exponent).toNat, by omega⟩
    have hwhole : (-(j : Int)).toNat = 0 := by omega
    have hmin : min (-(j : Int)) 0 = -j := by omega
    simp only [hwhole, hmin, Int.neg_neg, Int.toNat_natCast]
    simpa using toFloat_exact_of_neg hpos (by omega) hcanonical
  · obtain ⟨k, rfl⟩ : ∃ k : Nat, exponent = k := ⟨exponent.toNat, by omega⟩
    have hplaces : (-(k : Int)).toNat = 0 := by omega
    have hmin : min (k : Int) 0 = ((0 : Nat) : Int) := by omega
    have hmul : 0 < mantissa * 2 ^ k := Nat.mul_pos hpos (Nat.two_pow_pos k)
    simp only [hplaces, hmin, Int.toNat_natCast]
    -- The nearest double to the value is the double, since rounding goes by the value.
    have hvalue : mantissa * 2 ^ k * 2 ^ 53 = mantissa * 2 ^ (k + 53) := by
      rw [Nat.mul_assoc, ← Nat.pow_add]
    have hround := roundWithAccuracy_mul .positive hpos
      (Int.le_of_eq (hcanonical.targetExponent_eq hpos).symm) (k + 53)
    have hexponent : (k : Int) - ((k + 53 : Nat) : Int) = -53 := by omega
    rw [hexponent, roundWithAccuracy_of_isCanonical _ hpos hcanonical, ← hvalue] at hround
    have hnearest := toFloat_of_nonneg (k := 0) hmul (by omega)
    simp only [Nat.pow_eq, Nat.pow_zero, Nat.mul_one] at hnearest ⊢
    rw [hnearest, nearestWhole, hround]

/-! ### The search -/

/-- What the search finds reads back. -/
theorem toFloat_of_neighbour? {tie : Tie} {x : Float} {r : Decimal.Ratio} {k : Int} {d : Decimal}
    (h : Decimal.neighbour? tie x r k = some d) : d.toFloat = x := by
  simp only [Decimal.neighbour?] at h
  split at h <;> cases h
  · next hfirst hsecond =>
    -- Both neighbours read back, and the closer one is one of them.
    have hcloser : r.closer tie (r.floorOn k) k = r.floorOn k ∨
        r.closer tie (r.floorOn k) k = r.floorOn k + 1 := by
      unfold Decimal.Ratio.closer
      grind
    rcases hcloser with hcloser | hcloser <;> rw [hcloser]
    · exact of_decide_eq_true hfirst
    · exact of_decide_eq_true hsecond
  · next hfirst _ => exact of_decide_eq_true hfirst
  · next _ hsecond => exact of_decide_eq_true hsecond

/-- The shortest decimal of a positive double reads back to it. -/
theorem toFloat_shortest (tie : Tie) {x : Float} {mantissa : Nat} {exponent : Int}
    {hpos : 0 < mantissa} (hparts : x.toModel.unpack = .finite .positive mantissa exponent hpos) :
    (Decimal.shortest tie x mantissa exponent).toFloat = x := by
  have hexact : (Decimal.exact mantissa exponent).toFloat = x := by
    have hcanonical := isCanonical_of_unpack hparts
    apply eq_of_unpack_eq
    rw [toFloat_exact hpos hcanonical, hparts]
    exact unpack_pack hcanonical
  -- Where the search finds nothing, all the digits are taken.
  have hgetD : ∀ nearest? : Option Decimal, (∀ d, nearest? = some d → d.toFloat = x) →
      (nearest?.getD (.exact mantissa exponent)).toFloat = x := by
    intro nearest? hnearest
    cases nearest? with
    | some d => exact hnearest d rfl
    | none => exact hexact
  refine hgetD _ fun d hd ↦ ?_
  obtain ⟨n, -, hfound⟩ := List.exists_of_findSome?_eq_some hd
  exact toFloat_of_neighbour? hfound

end Tradeoff
