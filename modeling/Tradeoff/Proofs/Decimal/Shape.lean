import Tradeoff.Proofs.Decimal.Numerals

/-!
# The shape of numerals

A numeral has a shape: digits, possibly a point and digits, possibly an exponent (`IsShaped`). What
is scanned has the shape and is the longest beginning of the text that has it
(`isLongest_text_scan`), although the scanner looks past a mark only to find out whether an exponent
follows. A text of the shape is scanned back as its parts (`IsShaped.scan_text`), so that the shape
alone says which texts are numbers: those with a digit before the exponent
(`isSome_readNumber?_iff`).
-/

namespace Tradeoff

/-- The characters are the longest beginning of `cs` with the property. -/
structure IsLongest (p : List Char → Prop) (chars cs : List Char) : Prop where
  /-- They have the property. -/
  holds : p chars
  /-- They are a beginning. -/
  begins : chars <+: cs
  /-- No longer beginning has the property. -/
  length_le : ∀ other, other <+: cs → p other → other.length ≤ chars.length

/-- There is only one longest beginning. -/
theorem IsLongest.unique {p : List Char → Prop} {chars chars' cs : List Char}
    (h : IsLongest p chars cs) (h' : IsLongest p chars' cs) : chars = chars' := by
  have hle := h'.length_le _ h.begins h.holds
  have hge := h.length_le _ h'.begins h'.holds
  exact (List.prefix_of_prefix_length_le h.begins h'.begins hle).eq_of_length
    (Nat.le_antisymm hle hge)

/-- What is taken is the longest beginning with the property throughout. -/
theorem isLongest_takeWhile (p : Char → Bool) (cs : List Char) :
    IsLongest (fun chars ↦ ∀ c ∈ chars, p c) (cs.takeWhile p) cs where
  holds c hc := List.mem_takeWhile_imp hc
  begins := List.takeWhile_prefix p
  length_le := by
    rintro other ⟨rest, rfl⟩ hother
    rw [List.takeWhile_append_of_pos hother, List.length_append]
    exact Nat.le_add_right _ _

namespace Numeral

/-- A sign, or nothing. -/
def IsSign (cs : List Char) : Prop := cs = [] ∨ cs = ['+'] ∨ cs = ['-']

/-- A mark, possibly a sign, and digits, of which there is at least one. -/
def IsExponent (cs : List Char) : Prop :=
  ∃ mark sign digits, cs = mark :: (sign ++ digits) ∧ isMark mark ∧ IsSign sign ∧ digits ≠ [] ∧
    ∀ c ∈ digits, c.isDigit

/-- The parts are what their names say. -/
structure IsShaped (n : Numeral) : Prop where
  /-- Before the point stand digits. -/
  whole : ∀ c ∈ n.whole, c.isDigit
  /-- The fraction is a point and digits, or nothing. -/
  fraction : n.fraction = [] ∨ ∃ places, n.fraction = '.' :: places ∧ ∀ c ∈ places, c.isDigit
  /-- The exponent is one, or nothing. -/
  exponent : n.exponent = [] ∨ IsExponent n.exponent

/-- The characters have the shape of a number, though there may be none of them. -/
def HasShape (cs : List Char) : Prop := ∃ n : Numeral, n.IsShaped ∧ n.text = cs

/-- A digit has the shape of a numeral, and so has the point. -/
theorem hasShape_singleton {c : Char} (h : c.isDigit ∨ c = '.') : HasShape [c] := by
  rcases h with hdigit | rfl
  · exact ⟨⟨[c], [], []⟩, ⟨by simpa using hdigit, .inl rfl, .inl rfl⟩, rfl⟩
  · exact ⟨⟨[], ['.'], []⟩, ⟨by simp, .inr ⟨[], rfl, by simp⟩, .inl rfl⟩, rfl⟩

/-! ### Signs and exponents -/

theorem isDigit_of_isMark {c : Char} (h : isMark c) : c.isDigit = false := by
  have hmark : c = 'e' ∨ c = 'E' := by simpa [isMark] using h
  rcases hmark with rfl | rfl <;> rfl

/-- What is scanned as a sign is a sign or nothing. -/
theorem isSign_scanSign (cs : List Char) : IsSign (scanSign cs) := by
  unfold scanSign IsSign
  split <;> simp

theorem isPrefix_scanSign (cs : List Char) : scanSign cs <+: cs := by
  unfold scanSign
  split <;> simp

/-- A sign before a digit is found. -/
theorem scanSign_append {sign digits : List Char} (hsign : IsSign sign) (hne : digits ≠ [])
    (hdigits : ∀ c ∈ digits, c.isDigit) (rest : List Char) :
    scanSign (sign ++ digits ++ rest) = sign := by
  rcases hsign with rfl | rfl | rfl
  · obtain ⟨c, digits, rfl⟩ := List.exists_cons_of_ne_nil hne
    have hc : c.isDigit := hdigits c List.mem_cons_self
    show scanSign (c :: (digits ++ rest)) = []
    unfold scanSign
    split
    · next heq =>
      cases heq
      cases hc
    · next heq =>
      cases heq
      cases hc
    · rfl
  · rfl
  · rfl

/-- An exponent is scanned from the beginning. -/
theorem isPrefix_scanExponent (cs : List Char) : scanExponent cs <+: cs := by
  cases cs with
  | nil => exact List.prefix_refl []
  | cons mark cs =>
    unfold scanExponent
    dsimp only
    split
    · refine (List.prefix_cons_inj mark).mpr ?_
      conv_rhs => rw [← List.prefix_iff_eq_append.mp (isPrefix_scanSign cs)]
      exact (List.prefix_append_right_inj _).mpr (List.takeWhile_prefix _)
    · exact List.nil_prefix

/-- What is scanned as an exponent is one, or nothing. -/
theorem isExponent_scanExponent (cs : List Char) :
    scanExponent cs = [] ∨ IsExponent (scanExponent cs) := by
  cases cs with
  | nil => exact .inl rfl
  | cons mark cs =>
    unfold scanExponent
    dsimp only
    split
    · next h =>
      rw [Bool.and_eq_true, Bool.not_eq_true', List.isEmpty_eq_false_iff] at h
      exact .inr ⟨mark, _, _, rfl, h.1, isSign_scanSign cs, h.2,
        fun c hc ↦ List.mem_takeWhile_imp hc⟩
    · exact .inl rfl

/-- An exponent is found with all the digits that follow it. -/
theorem scanExponent_append {exponent : List Char} (h : IsExponent exponent) (rest : List Char) :
    scanExponent (exponent ++ rest) = exponent ++ rest.takeWhile Char.isDigit := by
  obtain ⟨mark, sign, digits, rfl, hmark, hsign, hne, hdigits⟩ := h
  have hfound := scanSign_append hsign hne hdigits rest
  have htake : ((sign ++ digits ++ rest).drop sign.length).takeWhile Char.isDigit =
      digits ++ rest.takeWhile Char.isDigit := by
    rw [List.append_assoc, List.drop_left, List.takeWhile_append_of_pos hdigits]
  rw [List.cons_append]
  simp only [scanExponent, hfound, htake]
  simp [hmark, hne]

/-! ### Scanning -/

/-- A fraction is scanned from the beginning. -/
theorem isPrefix_scanFraction (cs : List Char) : scanFraction cs <+: cs := by
  unfold scanFraction
  split
  · exact (List.prefix_cons_inj '.').mpr (List.takeWhile_prefix _)
  · exact List.nil_prefix

/-- What is scanned has the shape of a numeral. -/
theorem isShaped_scan (cs : List Char) : (scan cs).IsShaped where
  whole c hc := List.mem_takeWhile_imp hc
  fraction := by
    dsimp only [scan]
    unfold scanFraction
    split
    · exact .inr ⟨_, rfl, fun c hc ↦ List.mem_takeWhile_imp hc⟩
    · exact .inl rfl
  exponent := isExponent_scanExponent _

/-- What is scanned is the beginning of the text. -/
theorem isPrefix_text_scan (cs : List Char) : (scan cs).text <+: cs := by
  have hwhole := List.prefix_iff_eq_append.mp (List.takeWhile_prefix (l := cs) Char.isDigit)
  dsimp only [scan, text]
  generalize cs.drop (cs.takeWhile Char.isDigit).length = rest at hwhole ⊢
  have hfraction := List.prefix_iff_eq_append.mp (isPrefix_scanFraction rest)
  conv_rhs => rw [← hwhole, ← hfraction]
  rw [List.append_assoc]
  exact (List.prefix_append_right_inj _).mpr ((List.prefix_append_right_inj _).mpr
    (isPrefix_scanExponent _))

namespace IsShaped

variable {n : Numeral} (h : n.IsShaped)

include h

/-- Up to the digits of an exponent, the parts are scanned as they are. -/
theorem scan_of_isExponent (hexponent : IsExponent n.exponent) (rest : List Char) :
    scan (n.text ++ rest) = ⟨n.whole, n.fraction, n.exponent ++ rest.takeWhile Char.isDigit⟩ := by
  have hscan := scanExponent_append hexponent rest
  obtain ⟨mark, tail, htext, hmark⟩ : ∃ mark tail, n.exponent = mark :: tail ∧ isMark mark := by
    obtain ⟨mark, sign, digits, htext, hmark, -⟩ := hexponent
    exact ⟨mark, sign ++ digits, htext, hmark⟩
  have hdigit : ∀ c, (n.exponent ++ rest).head? = some c → c.isDigit = false := by
    rw [htext]
    rintro c ⟨⟩
    exact isDigit_of_isMark hmark
  rw [text, List.append_assoc, List.append_assoc]
  rcases h.fraction with hfraction | ⟨places, hfraction, hplaces⟩
  · -- Without a point the mark ends the digits.
    have hpoint : (n.exponent ++ rest).head? ≠ some '.' := by
      rw [htext]
      rintro ⟨⟩
      cases hmark
    rw [hfraction, List.nil_append, scan_append_of_digits h.whole hdigit,
      scanFraction_of_head?_ne hpoint, List.length_nil, List.drop_zero, hscan]
  · rw [hfraction, scan_append_of_digits h.whole, scanFraction_point hplaces hdigit,
      List.drop_left, hscan]
    rintro c ⟨⟩
    rfl

/-- The digits after a point are scanned with those that follow them. -/
theorem scan_of_point {places : List Char} (hfraction : n.fraction = '.' :: places)
    (hexponent : n.exponent = []) (rest : List Char) :
    scan (n.text ++ rest) =
      ⟨n.whole, n.fraction ++ rest.takeWhile Char.isDigit,
        scanExponent (rest.drop (rest.takeWhile Char.isDigit).length)⟩ := by
  have hplaces : ∀ c ∈ places, c.isDigit := by
    obtain hnil | ⟨places', heq, hplaces⟩ := h.fraction
    · rw [hnil] at hfraction
      cases hfraction
    · rw [heq] at hfraction
      exact (List.cons.inj hfraction).2 ▸ hplaces
  have hfound : scanFraction ('.' :: (places ++ rest)) =
      '.' :: (places ++ rest.takeWhile Char.isDigit) := by
    show '.' :: (places ++ rest).takeWhile Char.isDigit = _
    rw [List.takeWhile_append_of_pos hplaces]
  have hdrop (cs : List Char) :
      ('.' :: (places ++ rest)).drop ('.' :: (places ++ cs)).length = rest.drop cs.length := by
    rw [List.length_cons, List.drop_succ_cons, List.length_append,
      List.drop_length_add_append]
  rw [text, hexponent, List.append_nil, List.append_assoc, hfraction, List.cons_append,
    scan_append_of_digits h.whole, hfound, hdrop, List.cons_append]
  · rintro c ⟨⟩
    rfl

/-- Nothing longer than what is scanned has the shape. -/
theorem length_text_le (rest : List Char) :
    n.text.length ≤ (scan (n.text ++ rest)).text.length := by
  rcases h.exponent with hexponent | hexponent
  · rcases h.fraction with hfraction | ⟨places, hfraction, -⟩
    · have hwhole : (scan (n.whole ++ rest)).whole = n.whole ++ rest.takeWhile Char.isDigit :=
        List.takeWhile_append_of_pos h.whole
      simp only [text, hfraction, hexponent, List.append_nil, hwhole, List.length_append]
      omega
    · rw [h.scan_of_point hfraction hexponent]
      simp only [text, hexponent, List.length_append, List.length_nil]
      omega
  · rw [h.scan_of_isExponent hexponent]
    simp only [text, List.length_append]
    omega

/-- A text of the shape is scanned as its parts. -/
theorem scan_text : scan n.text = n := by
  rw [← List.append_nil n.text]
  rcases n with ⟨whole, fraction, exponent⟩
  rcases h.exponent with rfl | hexponent
  · rcases h.fraction with rfl | ⟨places, rfl, -⟩
    · have hends : Ends [] := by
        rintro c ⟨⟩
      simpa [text] using scan_digits h.whole hends
    · simpa [scanExponent] using h.scan_of_point rfl rfl []
  · simpa using h.scan_of_isExponent hexponent []

/-- A text of the shape reads as the decimal of its parts. -/
theorem readNumber?_text : readNumber? n.text = n.decimal?.map Decimal.toFloat := by
  simp only [readNumber?, h.scan_text, if_true]

/-- A numeral denotes nothing if it has at most a point before its exponent. -/
theorem decimal?_eq_none_iff :
    n.decimal? = none ↔ n.whole = [] ∧ (n.fraction = [] ∨ n.fraction = ['.']) := by
  have hempty : n.decimal? = none ↔ n.whole ++ n.fraction.drop 1 = [] := by
    unfold decimal?
    dsimp only
    split <;> simp_all
  rw [hempty, List.append_eq_nil_iff]
  rcases h.fraction with hfraction | ⟨places, hfraction, -⟩ <;> simp [hfraction]

/-- **Numbers have a digit before the exponent.** A text of the shape is a number exactly then. -/
theorem isSome_readNumber?_iff :
    (readNumber? n.text).isSome ↔ ∃ c ∈ n.whole ++ n.fraction, c.isDigit := by
  rw [h.readNumber?_text, Option.isSome_map, ← Option.ne_none_iff_isSome, ne_eq,
    h.decimal?_eq_none_iff]
  constructor
  · intro hsome
    rcases hwhole : n.whole with _ | ⟨c, cs⟩
    · rcases h.fraction with hfraction | ⟨_ | ⟨c, cs⟩, hfraction, hplaces⟩
      · exact absurd ⟨hwhole, .inl hfraction⟩ hsome
      · exact absurd ⟨hwhole, .inr hfraction⟩ hsome
      · exact ⟨c, by simp [hfraction], hplaces c List.mem_cons_self⟩
    · exact ⟨c, List.mem_append_left _ List.mem_cons_self, h.whole c (hwhole ▸ List.mem_cons_self)⟩
  · rintro ⟨c, hc, hdigit⟩ ⟨hwhole, hfraction | hfraction⟩
    · simp [hwhole, hfraction] at hc
    · obtain rfl : c = '.' := by simpa [hwhole, hfraction] using hc
      cases hdigit

end IsShaped

theorem hasShape_text_scan (cs : List Char) : HasShape (scan cs).text :=
  ⟨scan cs, isShaped_scan cs, rfl⟩

/-- **Scanning is greedy.** What is scanned is the longest beginning that has the shape. -/
theorem isLongest_text_scan (cs : List Char) : IsLongest HasShape (scan cs).text cs where
  holds := hasShape_text_scan cs
  begins := isPrefix_text_scan cs
  length_le := by
    rintro other ⟨rest, rfl⟩ ⟨n, hn, rfl⟩
    exact hn.length_text_le rest

end Numeral

end Tradeoff
