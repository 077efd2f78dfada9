import Tradeoff.Decimal.Text
import Tradeoff.Proofs.Decimal.ReadBack

/-!
# Numerals that read back

A finite double is written as digits, possibly with a point and more digits. Before anything that
cannot go on a number, that text is read as one numeral (`scan_writePositional`), and the numeral
denotes the double again (`exists_numeral`).

A whole decimal loses its exponent when it is written, since zeros take its place (`spelled`), but
not its value.
-/

namespace Tradeoff

/-! ### Scanning digits -/

/-- The characters before the first one without the property. -/
theorem takeWhile_append_eq {p : Char → Bool} {cs rest : List Char} (hcs : ∀ c ∈ cs, p c)
    (hrest : ∀ c, rest.head? = some c → p c = false) : (cs ++ rest).takeWhile p = cs := by
  rw [List.takeWhile_append_of_pos hcs]
  cases rest with
  | nil => simp
  | cons c rest => simp [hrest c rfl]

namespace Numeral

/-- The characters do not go on a number. -/
def Ends (rest : List Char) : Prop :=
  ∀ c, rest.head? = some c → c.isDigit = false ∧ c ≠ '.' ∧ isMark c = false

/-- What follows the digits before the point is scanned on its own. -/
theorem scan_append_of_digits {whole rest : List Char} (hwhole : ∀ c ∈ whole, c.isDigit)
    (hrest : ∀ c, rest.head? = some c → c.isDigit = false) :
    scan (whole ++ rest) =
      ⟨whole, scanFraction rest, scanExponent (rest.drop (scanFraction rest).length)⟩ := by
  simp only [scan, takeWhile_append_eq hwhole hrest, List.drop_left]

theorem scanFraction_of_head?_ne {rest : List Char} (h : rest.head? ≠ some '.') :
    scanFraction rest = [] := by
  unfold scanFraction
  split
  · exact absurd rfl h
  · rfl

theorem scanFraction_point {places rest : List Char} (hplaces : ∀ c ∈ places, c.isDigit)
    (hrest : ∀ c, rest.head? = some c → c.isDigit = false) :
    scanFraction ('.' :: places ++ rest) = '.' :: places := by
  show '.' :: (places ++ rest).takeWhile Char.isDigit = '.' :: places
  rw [takeWhile_append_eq hplaces hrest]

theorem scanFraction_of_ends {rest : List Char} (hrest : Ends rest) : scanFraction rest = [] :=
  scanFraction_of_head?_ne fun hpoint ↦ (hrest '.' hpoint).2.1 rfl

theorem scanExponent_of_ends {rest : List Char} (hrest : Ends rest) : scanExponent rest = [] := by
  cases rest with
  | nil => rfl
  | cons c rest =>
    have hmark := (hrest c rfl).2.2
    simp [scanExponent, hmark]

/-- Digits alone. -/
theorem scan_digits {digits rest : List Char} (hdigits : ∀ c ∈ digits, c.isDigit)
    (hrest : Ends rest) : scan (digits ++ rest) = ⟨digits, [], []⟩ := by
  rw [scan_append_of_digits hdigits fun c hc ↦ (hrest c hc).1, scanFraction_of_ends hrest,
    List.length_nil, List.drop_zero, scanExponent_of_ends hrest]

/-- Digits with a point between them. -/
theorem scan_fraction {whole places rest : List Char} (hwhole : ∀ c ∈ whole, c.isDigit)
    (hplaces : ∀ c ∈ places, c.isDigit) (hrest : Ends rest) :
    scan (whole ++ '.' :: (places ++ rest)) = ⟨whole, '.' :: places, []⟩ := by
  have hpoint : ∀ c, ('.' :: places ++ rest).head? = some c → c.isDigit = false := by
    rintro c ⟨⟩
    rfl
  rw [← List.cons_append, scan_append_of_digits hwhole hpoint,
    scanFraction_point hplaces fun c hc ↦ (hrest c hc).1, List.drop_left,
    scanExponent_of_ends hrest]

end Numeral

/-! ### Writing without an exponent -/

/-- The decimal that the text of a decimal spells: zeros take the place of a positive exponent. -/
def Decimal.spelled (d : Decimal) : Decimal :=
  if 0 ≤ d.exponent then ⟨d.digits * 10 ^ d.exponent.toNat, 0⟩ else d

/-- The digits of a number, with zeros before or after them. -/
theorem isDigit_of_mem {n j k : Nat} :
    ∀ c ∈ List.replicate j '0' ++ Nat.toDigits 10 n ++ List.replicate k '0', c.isDigit := by
  intro c hc
  rcases List.mem_append.mp hc with hc | hzero
  · rcases List.mem_append.mp hc with hzero | hdigit
    · rw [List.eq_of_mem_replicate hzero]
      rfl
    · exact Nat.isDigit_of_mem_toDigits (by decide) (by decide) hdigit
  · rw [List.eq_of_mem_replicate hzero]
    rfl

/-- A whole decimal is written as digits, zeros in the place of its exponent. -/
theorem writePositional_of_nonneg {d : Decimal} (h : 0 ≤ d.exponent) :
    ∃ digits : List Char, digits ≠ [] ∧ (∀ c ∈ digits, c.isDigit) ∧
      Nat.ofDigitChars 10 digits 0 = d.digits * 10 ^ d.exponent.toNat ∧
      (NumberStyle.plain.writePositional d).toList = digits := by
  refine ⟨Nat.toDigits 10 d.digits ++ List.replicate d.exponent.toNat '0', ?_, ?_, ?_, ?_⟩
  · simp [Nat.toDigits_ne_nil]
  · exact fun c hc ↦ isDigit_of_mem (j := 0) c hc
  · simp [Nat.ofDigitChars_append, Nat.mul_comm]
  · simp [NumberStyle.writePositional, h, NumberStyle.plain]

/-- A decimal with places is written as its digits, with zeros before them if there are too few, and
a point among them. -/
theorem writePositional_of_neg {d : Decimal} (h : ¬ 0 ≤ d.exponent) :
    ∃ whole places : List Char, whole ≠ [] ∧ (∀ c ∈ whole ++ places, c.isDigit) ∧
      Nat.ofDigitChars 10 (whole ++ places) 0 = d.digits ∧ places.length = d.exponent.natAbs ∧
      (NumberStyle.plain.writePositional d).toList = whole ++ '.' :: places := by
  generalize hpadded :
    List.replicate (d.exponent.natAbs + 1 - (Nat.toDigits 10 d.digits).length) '0' ++
      Nat.toDigits 10 d.digits = padded
  have hlength : d.exponent.natAbs + 1 ≤ padded.length := by
    rw [← hpadded, List.length_append, List.length_replicate]
    omega
  refine ⟨padded.take (padded.length - d.exponent.natAbs),
    padded.drop (padded.length - d.exponent.natAbs), ?_, ?_, ?_, ?_, ?_⟩
  -- The padding leaves a digit before the point.
  · intro hnil
    have := congrArg List.length hnil
    rw [List.length_take, List.length_nil] at this
    omega
  · rw [List.take_append_drop, ← hpadded]
    simpa using isDigit_of_mem (k := 0)
  · rw [List.take_append_drop, ← hpadded, Nat.ofDigitChars_append,
      Nat.ofDigitChars_replicate_zero, Nat.mul_zero, Nat.ofDigitChars_ten_toDigits]
  · rw [List.length_drop]
    omega
  · simp [NumberStyle.writePositional, h, hpadded]

/-- What is written without an exponent is read as one numeral, which denotes the decimal. -/
theorem scan_writePositional (d : Decimal) {rest : List Char} (hrest : Numeral.Ends rest) :
    (Numeral.scan ((NumberStyle.plain.writePositional d).toList ++ rest)).text =
        (NumberStyle.plain.writePositional d).toList ∧
      (Numeral.scan ((NumberStyle.plain.writePositional d).toList ++ rest)).decimal? =
        some d.spelled := by
  by_cases h : 0 ≤ d.exponent
  · obtain ⟨digits, hne, hdigits, hvalue, htext⟩ := writePositional_of_nonneg h
    rw [htext, Numeral.scan_digits hdigits hrest, Decimal.spelled, if_pos h, ← hvalue]
    simp [Numeral.text, Numeral.decimal?, Numeral.power, hne]
  · obtain ⟨whole, places, hne, hdigits, hvalue, hlength, htext⟩ := writePositional_of_neg h
    have hexponent : (0 : Int) - (d.exponent.natAbs : Int) = d.exponent := by omega
    have hspelled :
        d.spelled = ⟨Nat.ofDigitChars 10 (whole ++ places) 0, 0 - (places.length : Int)⟩ := by
      rw [Decimal.spelled, if_neg h, hvalue, hlength, hexponent]
    rw [htext, List.append_assoc, List.cons_append, Numeral.scan_fraction
      (fun c hc ↦ hdigits c (List.mem_append_left _ hc))
      (fun c hc ↦ hdigits c (List.mem_append_right _ hc)) hrest, hspelled]
    simp [Numeral.text, Numeral.decimal?, Numeral.power, hne]

/-- A decimal is written with a digit first. -/
theorem exists_digit_of_writePositional (d : Decimal) :
    ∃ c cs, (NumberStyle.plain.writePositional d).toList = c :: cs ∧ c.isDigit := by
  by_cases h : 0 ≤ d.exponent
  · obtain ⟨digits, hne, hdigits, -, htext⟩ := writePositional_of_nonneg h
    obtain ⟨c, cs, rfl⟩ := List.exists_cons_of_ne_nil hne
    exact ⟨c, cs, htext, hdigits c List.mem_cons_self⟩
  · obtain ⟨whole, places, hne, hdigits, -, -, htext⟩ := writePositional_of_neg h
    obtain ⟨c, cs, rfl⟩ := List.exists_cons_of_ne_nil hne
    exact ⟨c, cs ++ '.' :: places, htext, hdigits c (by simp)⟩

/-! ### Nothing is lost -/

/-- Zero reads as zero whatever its exponent. -/
theorem toFloat_zero (k : Nat) : Decimal.toFloat ⟨0, k⟩ = .ofModel (.pack (.zero .positive)) := by
  rw [toFloat_natCast]
  split
  · next hshort =>
    have hall : ∀ k : Fin 23,
        (0 : Nat).toUInt64.toFloat * Float.exactlyRepresentablePowersOfTen[k] =
          .ofModel (.pack (.zero .positive)) := by
      decide +kernel
    exact hall ⟨k, by omega⟩
  · rfl

/-- Exponents out of all proportion read as infinity. -/
theorem toFloat_of_large {n k : Nat} (hpos : 0 < n) (hk : 2048 < k) :
    Decimal.toFloat ⟨n, k⟩ = .ofModel (.pack (.infinity .positive)) := by
  have hlarge : (k : Int) > 2 ^ Float.Model.Format.binary64.exponentBits := by
    show (k : Int) > 2048
    omega
  rw [toFloat_natCast, dif_neg (by omega), Float.Model.UnpackedFloat.ofScientific,
    dif_neg (by omega), if_pos hlarge]

/-- Writing zeros in the place of an exponent does not change what a finite double reads as. -/
theorem toFloat_spelled {d : Decimal} (hfinite : d.toFloat.isFinite) :
    d.spelled.toFloat = d.toFloat := by
  rcases d with ⟨n, exponent⟩
  by_cases h : 0 ≤ exponent
  · obtain ⟨k, rfl⟩ : ∃ k : Nat, exponent = k := ⟨exponent.toNat, by omega⟩
    simp only [Decimal.spelled, h, if_true, Int.toNat_natCast]
    by_cases hzero : n = 0
    · subst hzero
      rw [Nat.zero_mul, toFloat_zero k]
      exact toFloat_zero 0
    have hpos : 0 < n := by omega
    -- Longer exponents read as infinity, which is not finite.
    have hk : k ≤ 2048 := by
      rcases Nat.lt_or_ge 2048 k with hlarge | hk
      · rw [toFloat_of_large hpos hlarge] at hfinite
        cases hfinite
      · exact hk
    have hdigits : 0 < n * 10 ^ k := Nat.mul_pos hpos (Nat.pow_pos (by decide))
    have hspelled := toFloat_of_nonneg (k := 0) hdigits (by omega)
    rw [toFloat_of_nonneg hpos hk]
    simpa using hspelled
  · simp only [Decimal.spelled, h, if_false]

/-- **Finite doubles read back.** The text of the magnitude of a finite double is a decimal without
an exponent, and the decimal that it spells reads as the magnitude. -/
theorem exists_numeral {x : Float} (hfinite : x.isFinite) :
    ∃ d : Decimal, NumberStyle.plain.write x.abs = NumberStyle.plain.writePositional d ∧
      d.spelled.toFloat = x.abs := by
  have hwrite : ∀ d, DecimalForm.ofFloat .up x.abs = .finite false d →
      NumberStyle.plain.write x.abs = NumberStyle.plain.writePositional d := by
    intro d hd
    have htie : NumberStyle.plain.tie = .up := rfl
    have hpositional : NumberStyle.plain.isPositional d = true := rfl
    simp [NumberStyle.write, htie, hd, NumberStyle.writeDecimal, hpositional]
  -- A finite double is zero or is written as the shortest decimal of its magnitude.
  have habs := unpack_abs x
  have hstatus : x.toModel.unpack.isFinite = true := hfinite
  rcases hparts : x.toModel.unpack with _ | _ | sign | ⟨sign, mantissa, exponent, hpos⟩
  · rw [hparts] at hstatus
    cases hstatus
  · rw [hparts] at hstatus
    cases hstatus
  · rw [hparts] at habs
    refine ⟨⟨0, 0⟩, hwrite _ ?_, ?_⟩
    · rw [DecimalForm.ofFloat, habs]
      rfl
    · have hzero := toFloat_zero 0
      apply eq_of_unpack_eq
      rw [habs]
      show (Decimal.toFloat ⟨0, (0 : Nat)⟩).toModel.unpack = .zero .positive
      rw [hzero]
      exact unpack_pack trivial
  · rw [hparts] at habs
    have hread := toFloat_shortest .up habs
    have hmagnitude : x.abs.isFinite := by rwa [isFinite_abs]
    refine ⟨.shortest .up x.abs mantissa exponent, hwrite _ ?_, ?_⟩
    · rw [DecimalForm.ofFloat, habs]
      show DecimalForm.finite false (.shortest .up x.abs.abs mantissa exponent) = _
      rw [abs_abs]
    · rw [toFloat_spelled (by rwa [hread]), hread]

end Tradeoff
