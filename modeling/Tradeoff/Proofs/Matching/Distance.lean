import Tradeoff.Matching.Nearest
import Tradeoff.Proofs.Decimal.Zeros

/-!
# Half distances

Of the function that puts distances together only this much is used: over zeros its result is a
zero, and it is never negative (`IsLength`). So no half distance is below zero
(`Coordinate.halfDistance_nonneg`).

The scale of a variable is positive and finite, whatever its bounds and its stored values are, so
that coordinates without a difference do not add to the distance: if there is no difference in any
of them, the half distance is zero (`Coordinate.halfDistance_eq_zero`).
-/

namespace Tradeoff

open Float.Model (UnpackedFloat)
open Float.Model.UnpackedFloat

/-! ### Lengths -/

/-- What is relied on of a function for the length of a hypotenuse. -/
structure IsLength (hypot : Float → Float → Float) : Prop where
  /-- The length over zeros is a zero. -/
  zero : ∀ x y, x == 0 → y == 0 → hypot x y == 0
  /-- A length is never negative. -/
  nonneg : ∀ x y, ¬hypot x y < 0

theorem carriesMinus_sqrtScaled (mantissa : Nat) (exponent : Int) :
    carriesMinus (sqrtScaled mantissa exponent) = false := by
  unfold sqrtScaled
  split
  · exact carriesMinus_ofModel_pack (isUnsigned_roundWithAccuracy _ _ _)
  · decide +kernel

/-- A length carries no minus sign, whatever those of its sides are. -/
theorem carriesMinus_hypotenuse (x y : Float) : carriesMinus (hypotenuse x y) = false := by
  unfold hypotenuse
  split
  case h_5 | h_6 => exact carriesMinus_abs _
  case h_7 => exact carriesMinus_sqrtScaled _ _
  all_goals decide +kernel

/-- Over two zeros the length is a zero. -/
theorem isZero_hypotenuse {x y : Float} (hx : IsZero x) (hy : IsZero y) :
    IsZero (hypotenuse x y) := by
  obtain ⟨sign, hx⟩ := hx
  obtain ⟨sign', hy⟩ := hy
  have habs : hypotenuse x y = y.abs := by
    unfold hypotenuse
    rw [hx, hy]
  exact ⟨.positive, by rw [habs, unpack_abs, hy]; rfl⟩

/-- The length that is rounded only once is one. -/
theorem isLength_hypotenuse : IsLength hypotenuse where
  zero _ _ hx hy :=
    isZero_iff_beq.mp (isZero_hypotenuse (isZero_iff_beq.mpr hx) (isZero_iff_beq.mpr hy))
  nonneg x y := not_lt_zero_of_carriesMinus (carriesMinus_hypotenuse x y)

/-! ### Scales -/

/-- A width is usable if it is positive and finite. -/
theorem isUsable_of_usableWidth? {width scale : Float} (h : usableWidth? width = some scale) :
    0 < scale ∧ scale.isFinite := by
  unfold usableWidth? at h
  split at h
  · next husable =>
    cases h
    rw [Bool.and_eq_true] at husable
    exact ⟨of_decide_eq_true husable.1, husable.2⟩
  · cases h

/-- A scale is positive and finite. -/
theorem Metric.scale_pos (metric : Metric) (v? : Option Variable) (stored : Array Float) :
    0 < metric.scale v? stored ∧ (metric.scale v? stored).isFinite := by
  have hone : (0 : Float) < 1 ∧ (1 : Float).isFinite := by
    decide +kernel
  cases metric with
  | euclidean => exact hone
  | normalized =>
    unfold scale
    dsimp only
    split
    · next width hwidth =>
      obtain ⟨v, -, hrange⟩ := Option.bind_eq_some_iff.mp hwidth
      obtain ⟨range, -, husable⟩ := Option.bind_eq_some_iff.mp hrange
      exact isUsable_of_usableWidth? husable
    · rcases hwidth : usableWidth? (spread stored) with _ | width
      · exact hone
      · exact isUsable_of_usableWidth? hwidth

/-! ### Distances -/

namespace Coordinate

variable {hypot : Float → Float → Float} {coordinates : List Coordinate} {row sample : Nat}

/-- No difference between a query and a sample stays none when it is scaled. -/
theorem isZero_halfDelta {c : Coordinate} {x y : Float} (hpos : 0 < c.scale)
    (hscale : c.scale.isFinite) (hquery : c.query[row]? = some x)
    (hstored : c.stored[sample]? = some y) (hfinite : x.isFinite) (heq : x == y) :
    IsZero (c.halfDelta row sample) := by
  rw [halfDelta, hquery, hstored]
  exact (isZero_halves_sub hfinite heq).div hpos hscale

/-- A half distance is not below zero. -/
theorem halfDistance_nonneg (hhypot : IsLength hypot) :
    ¬halfDistance hypot coordinates row sample < 0 := by
  unfold halfDistance
  induction coordinates using List.reverseRecOn with
  | nil => exact not_lt_zero_of_carriesMinus carriesMinus_zero
  | append_singleton coordinates c _ =>
    rw [List.foldl_append]
    exact hhypot.nonneg _ _

/-- Without any difference the half distance is zero. -/
theorem halfDistance_eq_zero (hhypot : IsLength hypot)
    (h : ∀ c ∈ coordinates, IsZero (c.halfDelta row sample)) :
    halfDistance hypot coordinates row sample == 0 := by
  unfold halfDistance
  induction coordinates using List.reverseRecOn with
  | nil =>
    rw [List.foldl_nil]
    exact isZero_iff_beq.mp ⟨.positive, rfl⟩
  | append_singleton coordinates c ih =>
    have hlast : c.halfDelta row sample == 0 :=
      isZero_iff_beq.mp (h c (List.mem_append_right _ (List.mem_singleton_self c)))
    rw [List.foldl_append]
    exact hhypot.zero _ _ (ih fun d hd ↦ h d (List.mem_append_left _ hd)) hlast

end Coordinate

end Tradeoff
