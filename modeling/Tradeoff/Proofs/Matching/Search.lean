import Tradeoff.Proofs.Matching.Distance

/-!
# The search for the least value

`least` goes through values once and keeps the first least one so far. What it has found after a
number of values is the first least among them, or nothing if none of them is below infinity
(`least_spec`): a value either takes the place of what was found before
(`IsFirstLeast.of_first`, `IsFirstLeast.of_less`) or leaves it there
(`IsFirstLeast.of_not_less`). Values that are not numbers are never less than anything and never
taken.
-/

namespace Tradeoff

/-! ### Values that count -/

/-- A zero counts. -/
theorem lt_infinity_of_eq_zero {x : Float} (h : x == 0) : x < 1 / 0 := by
  obtain ⟨hnumber, -, hplace⟩ := beq_iff.mp h
  have hinfinity : (1 / 0 : Float).isNaN = false ∧ placeOf 0 < placeOf (1 / 0) := by
    decide +kernel
  exact lt_iff.mpr ⟨hnumber, hinfinity.1, hplace ▸ hinfinity.2⟩

/-! ### The first least value -/

/-- The index is that of the first of the least among so many values. Only values below infinity
count, so none that is not a number. -/
structure IsFirstLeast (value : Nat → Float) (count index : Nat) : Prop where
  /-- The index is one of a value. -/
  lt_count : index < count
  /-- The value counts. -/
  lt_infinity : value index < 1 / 0
  /-- No value that counts is less. -/
  le : ∀ i < count, value i < 1 / 0 → value index ≤ value i
  /-- All before it that count are greater. -/
  lt : ∀ i < index, value i < 1 / 0 → value index < value i

namespace IsFirstLeast

variable {value : Nat → Float} {count index : Nat}

/-- The first value that counts is the first least so far. -/
theorem of_first (hnone : ∀ i < count, ¬value i < 1 / 0) (hlt : value count < 1 / 0) :
    IsFirstLeast value (count + 1) count where
  lt_count := Nat.lt_succ_self count
  lt_infinity := hlt
  le i hi hcounts := by
    obtain rfl : i = count := by
      have := mt (hnone i) (not_not_intro hcounts)
      omega
    obtain ⟨hnumber, -, -⟩ := lt_iff.mp hlt
    exact le_iff.mpr ⟨hnumber, hnumber, Int.le_refl _⟩
  lt i hi hcounts := absurd hcounts (hnone i hi)

/-- A value less than the first least so far takes its place. -/
theorem of_less (h : IsFirstLeast value count index) (hlt : value count < value index) :
    IsFirstLeast value (count + 1) count := by
  obtain ⟨hnumber, -, hplace⟩ := lt_iff.mp hlt
  have hless (i : Nat) (hi : i < count) (hcounts : value i < 1 / 0) : value count < value i := by
    obtain ⟨-, hnumber', hplace'⟩ := le_iff.mp (h.le i hi hcounts)
    exact lt_iff.mpr ⟨hnumber, hnumber', by omega⟩
  refine ⟨Nat.lt_succ_self count, ?_, fun i hi hcounts ↦ ?_, hless⟩
  · obtain ⟨-, hinfinity, hplace'⟩ := lt_iff.mp h.lt_infinity
    exact lt_iff.mpr ⟨hnumber, hinfinity, by omega⟩
  · rcases Nat.lt_succ_iff_lt_or_eq.mp hi with hi | rfl
    · obtain ⟨-, hnumber', hplace'⟩ := lt_iff.mp (hless i hi hcounts)
      exact le_iff.mpr ⟨hnumber, hnumber', by omega⟩
    · exact le_iff.mpr ⟨hnumber, hnumber, Int.le_refl _⟩

/-- A value not less than the first least so far leaves it in its place. -/
theorem of_not_less (h : IsFirstLeast value count index) (hnot : ¬value count < value index) :
    IsFirstLeast value (count + 1) index := by
  refine ⟨Nat.lt_succ_of_lt h.lt_count, h.lt_infinity, fun i hi hcounts ↦ ?_, h.lt⟩
  rcases Nat.lt_succ_iff_lt_or_eq.mp hi with hi | rfl
  · exact h.le i hi hcounts
  · obtain ⟨hnumber, -, -⟩ := lt_iff.mp hcounts
    obtain ⟨hnumber', -, -⟩ := lt_iff.mp h.lt_infinity
    have hplace : ¬placeOf (value i) < placeOf (value index) := fun hplace ↦
      hnot (lt_iff.mpr ⟨hnumber, hnumber', hplace⟩)
    exact le_iff.mpr ⟨hnumber', hnumber, by omega⟩

/-- If no value is negative, a zero is the least. -/
theorem eq_zero (h : IsFirstLeast value count index) (hnonneg : ∀ i, ¬value i < 0) {i : Nat}
    (hi : i < count) (hzero : value i == 0) : index ≤ i ∧ value index == 0 := by
  obtain ⟨-, -, hplace⟩ := beq_iff.mp hzero
  have hcounts : value i < 1 / 0 := lt_infinity_of_eq_zero hzero
  obtain ⟨hnumber', -, hleast⟩ := le_iff.mp (h.le i hi hcounts)
  have hnot : ¬placeOf (value index) < placeOf 0 := fun hlt ↦
    hnonneg index (lt_iff.mpr ⟨hnumber', isNaN_zero, hlt⟩)
  constructor
  · refine Nat.le_of_not_lt fun hlt ↦ hnot ?_
    obtain ⟨-, -, hless⟩ := lt_iff.mp (h.lt i hlt hcounts)
    exact hplace ▸ hless
  · exact beq_iff.mpr ⟨hnumber', isNaN_zero, by omega⟩

end IsFirstLeast

/-! ### The search -/

theorem leastFrom_append_singleton (best : Nat × Float) (index : Nat) (values : List Float)
    (value : Float) : leastFrom best index (values ++ [value]) =
      if value < (leastFrom best index values).2 then (index + values.length, value)
      else leastFrom best index values := by
  induction values generalizing best index with
  | nil => rfl
  | cons first values ih =>
    rw [List.cons_append, leastFrom, leastFrom, ih, List.length_cons]
    congr 2
    omega

/-- What is found among so many values: the first least of them, or zero and infinity if none is
below infinity. -/
theorem least_spec (value : Nat → Float) (count : Nat) :
    (∀ i < count, ¬value i < 1 / 0) ∧ least ((List.range count).map value) = (0, 1 / 0) ∨
      ∃ index, IsFirstLeast value count index ∧
        least ((List.range count).map value) = (index, value index) := by
  induction count with
  | zero => exact .inl ⟨fun i hi ↦ absurd hi (Nat.not_lt_zero i), rfl⟩
  | succ count ih =>
    have hstep : least ((List.range (count + 1)).map value) =
        if value count < (least ((List.range count).map value)).2 then (count, value count)
        else least ((List.range count).map value) := by
      rw [List.range_succ, List.map_append, List.map_singleton, least, leastFrom_append_singleton,
        List.length_map, List.length_range, Nat.zero_add]
      rfl
    rw [hstep]
    rcases ih with ⟨hnone, hleast⟩ | ⟨index, hfirst, hleast⟩ <;> rw [hleast]
    · by_cases hlt : value count < 1 / 0
      · exact .inr ⟨count, .of_first hnone hlt, if_pos hlt⟩
      · refine .inl ⟨fun i hi ↦ ?_, if_neg hlt⟩
        rcases Nat.lt_succ_iff_lt_or_eq.mp hi with hi | rfl
        · exact hnone i hi
        · exact hlt
    · by_cases hlt : value count < value index
      · exact .inr ⟨count, hfirst.of_less hlt, if_pos hlt⟩
      · exact .inr ⟨index, hfirst.of_not_less hlt, if_neg hlt⟩

end Tradeoff
