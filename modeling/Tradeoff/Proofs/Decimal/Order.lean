import Tradeoff.Proofs.Decimal.Doubles

/-!
# The order of doubles

Doubles have places in a row, counted from the zeros: the exponent decides first and then the
mantissa, and the infinities are at the ends (`place`). Comparing doubles that are numbers is
comparing their places (`compare_eq`), so their order is a strict total order up to the two zeros,
which share a place. What is not a number is not compared to anything.
-/

namespace Tradeoff

open Float.Model (UnpackedFloat)
open Float.Model.UnpackedFloat

/-- The place of the parts among those of all doubles. -/
def place : UnpackedFloat → Int
  | .finite sign mantissa exponent _ => sign.apply ((exponent + 1074) * 2 ^ 53 + mantissa)
  | .infinity sign => sign.apply (2046 * 2 ^ 53)
  | .zero _ | .notANumber => 0

/-- The exponent decides first. -/
theorem IsCanonical.compare_place {mantissa mantissa' : Nat} {exponent exponent' : Int}
    (h : IsCanonical mantissa exponent) (h' : IsCanonical mantissa' exponent') :
    (compare exponent exponent').then (compare mantissa mantissa') =
      compare ((exponent + 1074) * 2 ^ 53 + mantissa : Int)
        ((exponent' + 1074) * 2 ^ 53 + mantissa') := by
  have hlt := h.mantissa_lt
  have hlt' := h'.mantissa_lt
  rcases Int.lt_trichotomy exponent exponent' with he | rfl | he
  · rw [Int.compare_eq_lt.mpr he, Int.compare_eq_lt.mpr (by omega)]
    rfl
  · rw [Int.compare_eq_eq.mpr rfl]
    rcases Nat.lt_trichotomy mantissa mantissa' with hm | rfl | hm
    · rw [Nat.compare_eq_lt.mpr hm, Int.compare_eq_lt.mpr (by omega)]
      rfl
    · rw [Nat.compare_eq_eq.mpr rfl, Int.compare_eq_eq.mpr rfl]
      rfl
    · rw [Nat.compare_eq_gt.mpr hm, Int.compare_eq_gt.mpr (by omega)]
      rfl
  · rw [Int.compare_eq_gt.mpr he, Int.compare_eq_gt.mpr (by omega)]
    rfl

/-- Negation reverses the order. -/
theorem compare_neg (i j : Int) : compare (-i) (-j) = (compare i j).swap := by
  rcases Int.lt_trichotomy i j with h | rfl | h
  · rw [Int.compare_eq_lt.mpr h, Int.compare_eq_gt.mpr (by omega)]
    rfl
  · rw [Int.compare_eq_eq.mpr rfl, Int.compare_eq_eq.mpr rfl]
    rfl
  · rw [Int.compare_eq_gt.mpr h, Int.compare_eq_lt.mpr (by omega)]
    rfl

/-- The place of a finite double is after the zeros and before the infinities. -/
theorem IsCanonical.place_bounds {mantissa : Nat} {exponent : Int}
    (h : IsCanonical mantissa exponent) (hpos : 0 < mantissa) :
    0 < (exponent + 1074) * 2 ^ 53 + (mantissa : Int) ∧
      (exponent + 1074) * 2 ^ 53 + (mantissa : Int) < 2046 * 2 ^ 53 := by
  have hlt := h.mantissa_lt
  have hle := h.le_exponent
  have hle' := h.exponent_le
  omega

/-- Comparing doubles is comparing their places. -/
theorem compare_eq {a b : UnpackedFloat} (ha : IsStored a) (hb : IsStored b)
    (hnumber : a.isNaN = false) (hnumber' : b.isNaN = false) :
    a.compare b = some (compare (place a) (place b)) := by
  rcases a with s | _ | s | ⟨s, m, e, hm⟩
  case notANumber => cases hnumber
  case infinity =>
    rcases b with t | _ | t | ⟨t, n, f, hn⟩
    case notANumber => cases hnumber'
    case infinity => cases s <;> cases t <;> rfl
    case zero => cases s <;> rfl
    case finite =>
      have hbounds := IsCanonical.place_bounds hb hn
      cases s <;> cases t <;> simp only [UnpackedFloat.compare, place, Sign.apply] <;>
        first
        | rw [Int.compare_eq_lt.mpr (by omega)]
        | rw [Int.compare_eq_gt.mpr (by omega)]
  case zero =>
    rcases b with t | _ | t | ⟨t, n, f, hn⟩
    case notANumber => cases hnumber'
    case infinity => cases t <;> rfl
    case zero => rfl
    case finite =>
      have hbounds := IsCanonical.place_bounds hb hn
      cases t <;> simp only [UnpackedFloat.compare, place, Sign.apply]
      · rw [Int.compare_eq_gt.mpr (by omega)]
      · rw [Int.compare_eq_lt.mpr (by omega)]
  case finite =>
    have hbounds := IsCanonical.place_bounds ha hm
    rcases b with t | _ | t | ⟨t, n, f, hn⟩
    case notANumber => cases hnumber'
    case infinity =>
      cases s <;> cases t <;> simp only [UnpackedFloat.compare, place, Sign.apply] <;>
        first
        | rw [Int.compare_eq_lt.mpr (by omega)]
        | rw [Int.compare_eq_gt.mpr (by omega)]
    case zero =>
      cases s <;> simp only [UnpackedFloat.compare, place, Sign.apply]
      · rw [Int.compare_eq_lt.mpr (by omega)]
      · rw [Int.compare_eq_gt.mpr (by omega)]
    case finite =>
      have hbounds' := IsCanonical.place_bounds hb hn
      have hplaces := IsCanonical.compare_place ha hb
      cases s <;> cases t <;> simp only [UnpackedFloat.compare, place, Sign.apply]
      · rw [hplaces, compare_neg]
      · rw [Int.compare_eq_lt.mpr (by omega)]
      · rw [Int.compare_eq_gt.mpr (by omega)]
      · rw [hplaces]

/-- No two doubles share a place but the zeros. -/
theorem eq_or_zeros_of_place_eq {a b : UnpackedFloat} (ha : IsStored a) (hb : IsStored b)
    (hnumber : a.isNaN = false) (hnumber' : b.isNaN = false) (h : place a = place b) :
    a = b ∨ (∃ sign, a = .zero sign) ∧ ∃ sign, b = .zero sign := by
  rcases a with s | _ | s | ⟨s, m, e, hm⟩
  case notANumber => cases hnumber
  case infinity =>
    rcases b with t | _ | t | ⟨t, n, f, hn⟩
    case notANumber => cases hnumber'
    case infinity => cases s <;> cases t <;> first | exact .inl rfl | cases h
    case zero => cases s <;> cases h
    case finite =>
      have hbounds := IsCanonical.place_bounds hb hn
      cases s <;> cases t <;> simp only [place, Sign.apply] at h <;> omega
  case zero =>
    rcases b with t | _ | t | ⟨t, n, f, hn⟩
    case notANumber => cases hnumber'
    case infinity => cases t <;> cases h
    case zero => exact .inr ⟨⟨s, rfl⟩, t, rfl⟩
    case finite =>
      have hbounds := IsCanonical.place_bounds hb hn
      cases t <;> simp only [place, Sign.apply] at h <;> omega
  case finite =>
    have hbounds := IsCanonical.place_bounds ha hm
    rcases b with t | _ | t | ⟨t, n, f, hn⟩
    case notANumber => cases hnumber'
    case infinity => cases s <;> cases t <;> simp only [place, Sign.apply] at h <;> omega
    case zero => cases s <;> simp only [place, Sign.apply] at h <;> omega
    case finite =>
      have hbounds' := IsCanonical.place_bounds hb hn
      have hlt := IsCanonical.mantissa_lt ha
      have hlt' := IsCanonical.mantissa_lt hb
      have hparts : s = t ∧ e = f ∧ m = n := by
        cases s <;> cases t <;> simp only [place, Sign.apply] at h <;>
          first | omega | exact ⟨rfl, by omega, by omega⟩
      obtain ⟨rfl, rfl, rfl⟩ := hparts
      exact .inl rfl

/-! ### Comparisons -/

/-- The place of a double. -/
def placeOf (x : Float) : Int := place x.toModel.unpack

section

variable {x y : Float} {order : Ordering}

/-- Parts are compared as places are, unless one is not a number. -/
theorem compare_unpack_eq_some_iff : x.toModel.unpack.compare y.toModel.unpack = some order ↔
    x.isNaN = false ∧ y.isNaN = false ∧ compare (placeOf x) (placeOf y) = order := by
  rcases hx : x.isNaN with _ | _
  · rcases hy : y.isNaN with _ | _
    · rw [compare_eq (isStored_unpack _) (isStored_unpack _) hx hy]
      simp [placeOf]
    · have hnone : x.toModel.unpack.compare y.toModel.unpack = none := by
        rw [isNaN_iff_unpack.mp hy]
        rcases x.toModel.unpack with (_ | _) | _ | (_ | _) | ⟨_ | _, _, _, _⟩ <;> rfl
      simp [hnone]
  · have hnone : x.toModel.unpack.compare y.toModel.unpack = none := by
      rw [isNaN_iff_unpack.mp hx]
      rfl
    simp [hnone]

/-- Less means at a lower place. -/
theorem lt_iff : x < y ↔ x.isNaN = false ∧ y.isNaN = false ∧ placeOf x < placeOf y := by
  have hcompare : x < y ↔ (x.toModel.unpack.compare y.toModel.unpack == some .lt) = true :=
    decide_eq_true_iff
  rw [hcompare, beq_iff_eq, compare_unpack_eq_some_iff, Int.compare_eq_lt]

/-- At most means at a place that is not higher. -/
theorem le_iff : x ≤ y ↔ x.isNaN = false ∧ y.isNaN = false ∧ placeOf x ≤ placeOf y := by
  have hcompare : x ≤ y ↔ (x.toModel.unpack.compare y.toModel.unpack).any (·.isLE) = true :=
    decide_eq_true_iff
  rw [hcompare, Option.any_eq_true, ← Int.isLE_compare]
  simp only [compare_unpack_eq_some_iff]
  grind

/-- The order is transitive. -/
theorem le_of_le_of_le {z : Float} (h : x ≤ y) (h' : y ≤ z) : x ≤ z := by
  obtain ⟨hx, -, hle⟩ := le_iff.mp h
  obtain ⟨-, hz, hle'⟩ := le_iff.mp h'
  exact le_iff.mpr ⟨hx, hz, Int.le_trans hle hle'⟩

/-- What is not a number is not compared to anything. -/
theorem not_le_of_isNaN (h : y.isNaN) : ¬x ≤ y := by
  intro hle
  rw [(le_iff.mp hle).2.1] at h
  cases h

/-- Equal doubles share a place. -/
theorem beq_iff : x == y ↔ x.isNaN = false ∧ y.isNaN = false ∧ placeOf x = placeOf y := by
  have hcompare : x == y ↔ (x.toModel.unpack.compare y.toModel.unpack == some .eq) = true :=
    Iff.rfl
  rw [hcompare, beq_iff_eq, compare_unpack_eq_some_iff, Int.compare_eq_eq]

end

end Tradeoff
