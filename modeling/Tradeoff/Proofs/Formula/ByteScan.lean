import Tradeoff.Formula.ByteScan
import Tradeoff.Proofs.Formula.Lexemes

/-!
# Scanning bytes is scanning characters

`scanBytes` never fails, and what it finds is what `scan` finds (`scanBytes_eq`). So all that is
known of lexemes holds of the tokens found by indices (`scanBytes_eq_iff`).

The index of every byte that is looked at first is the place of a character (`StartsAt`). From such
a place on, the bytes are those of the remaining characters. A character that takes more than one
byte starts with one that is no ASCII character (`exists_bytes`), and everything a token consists of
is ASCII, so the end of a token that is found among the bytes is the end of its characters
(`StartsAt.runEnd?_eq`, `StartsAt.numberEnd?_eq`), and the place of a character again. This is why
every slice begins and ends between characters (`StartsAt.slice?_eq`).
-/

namespace Tradeoff

/-! ### Bytes of a character -/

/-- A byte is a character of the same number. -/
theorem toNat_byteChar (b : UInt8) : (byteChar b).toNat = b.toNat := by
  have hlt : b.toNat < 2 ^ 8 := b.toNat_lt
  rw [byteChar, Char.toNat_ofNat, if_pos]
  exact .inl (by omega)

/-- The characters of one byte are the ASCII characters. -/
theorem utf8Size_eq_one_iff {c : Char} : c.utf8Size = 1 ↔ c.toNat ≤ 127 := by
  rw [Char.utf8Size_eq_one_iff, UInt32.le_iff_toNat_le]
  rfl

/-- A character of one byte is that byte. Any other starts with a byte that is no such character. -/
theorem exists_bytes (c : Char) :
    ∃ b bs, String.utf8EncodeChar c = b :: bs ∧ (c.utf8Size = 1 → byteChar b = c ∧ bs = []) ∧
      (c.utf8Size ≠ 1 → (byteChar b).utf8Size ≠ 1) := by
  have hval : c.val.toNat = c.toNat := rfl
  have hlarge (n : Nat) (hn : n % 256 > 127) : (byteChar (UInt8.ofNat n)).utf8Size ≠ 1 := by
    rw [ne_eq, utf8Size_eq_one_iff, toNat_byteChar, UInt8.toNat_ofNat']
    omega
  unfold String.utf8EncodeChar
  dsimp only
  split
  · next h =>
    refine ⟨_, [], rfl, fun _ ↦ ⟨?_, rfl⟩, fun hnot ↦ absurd (utf8Size_eq_one_iff.mpr h) hnot⟩
    rw [byteChar, UInt8.toNat_ofNat', Nat.mod_eq_of_lt (by omega), hval, Char.ofNat_toNat]
  next h =>
    have hnot : c.utf8Size ≠ 1 := fun hone ↦ h (utf8Size_eq_one_iff.mp hone)
    -- Two, three or four bytes.
    split
    · exact ⟨_, _, rfl, fun hone ↦ absurd hone hnot, fun _ ↦ hlarge _ (by omega)⟩
    split
    · exact ⟨_, _, rfl, fun hone ↦ absurd hone hnot, fun _ ↦ hlarge _ (by omega)⟩
    · exact ⟨_, _, rfl, fun hone ↦ absurd hone hnot, fun _ ↦ hlarge _ (by omega)⟩

/-- Identifiers are ASCII. -/
theorem utf8Size_of_isIdentifierRest {c : Char} (h : isIdentifierRest c) : c.utf8Size = 1 := by
  obtain hplain | rfl : (((65 ≤ c.toNat ∧ c.toNat ≤ 90) ∨ (97 ≤ c.toNat ∧ c.toNat ≤ 122)) ∨
      (48 ≤ c.toNat ∧ c.toNat ≤ 57)) ∨ c = '_' := by
    simpa [isIdentifierRest, Char.isAlphanum, Char.isAlpha, Char.isUpper, Char.isLower,
      Char.isDigit, UInt32.le_iff_toNat_le] using h
  · exact utf8Size_eq_one_iff.mpr (by omega)
  · rfl

theorem utf8Size_of_isDigit {c : Char} (h : c.isDigit) : c.utf8Size = 1 :=
  utf8Size_of_isIdentifierRest (by simp [isIdentifierRest, Char.isAlphanum, h])

theorem utf8Size_of_isMark {c : Char} (h : Numeral.isMark c) : c.utf8Size = 1 := by
  obtain rfl | rfl : c = 'e' ∨ c = 'E' := by simpa [Numeral.isMark] using h
  · rfl
  · rfl

/-- Every character that is a token of its own is one byte. -/
theorem utf8Size_of_ofChar? {c : Char} {token : Token} (h : Token.ofChar? c = some token) :
    c.utf8Size = 1 := by
  unfold Token.ofChar? at h
  split at h <;> first | rfl | cases h

/-- A sign is one byte, if there is one. -/
theorem byteLength_scanSign (cs : List Char) :
    byteLength (Numeral.scanSign cs) =
      if cs.head?.any fun c ↦ c = '+' || c = '-' then 1 else 0 := by
  unfold Numeral.scanSign
  split
  · rfl
  · rfl
  · next hplus hminus =>
    cases cs with
    | nil => rfl
    | cons c cs =>
      have hplus : c ≠ '+' := fun heq ↦ hplus cs (heq ▸ rfl)
      have hminus : c ≠ '-' := fun heq ↦ hminus cs (heq ▸ rfl)
      simp [hplus, hminus]

/-- Something is taken exactly if the first character has the property. -/
theorem isEmpty_takeWhile {p : Char → Bool} (cs : List Char) :
    (!(cs.takeWhile p).isEmpty) = cs.head?.any p := by
  cases cs with
  | nil => rfl
  | cons c cs =>
    rw [List.takeWhile_cons, List.head?_cons, Option.any_some]
    cases p c <;> rfl

/-- A run of ASCII characters is a run of their bytes. -/
theorem length_takeWhile_bytes {p : Char → Bool} (hp : ∀ c, p c → c.utf8Size = 1) (cs : List Char) :
    ((cs.flatMap String.utf8EncodeChar).takeWhile fun b ↦ p (byteChar b)).length =
      byteLength (cs.takeWhile p) := by
  induction cs with
  | nil => rfl
  | cons c cs ih =>
    obtain ⟨b, bs, hbytes, hone, hmore⟩ := exists_bytes c
    rw [List.flatMap_cons, hbytes, List.cons_append, List.takeWhile_cons, List.takeWhile_cons]
    by_cases hc : p c = true
    · obtain ⟨hb, rfl⟩ := hone (hp c hc)
      rw [if_pos (by rwa [hb]), if_pos hc, List.nil_append, List.length_cons, ih, byteLength_cons,
        hp c hc, Nat.add_comm]
    · have hb : ¬p (byteChar b) = true := fun hb ↦ by
        by_cases hsize : c.utf8Size = 1
        · exact hc ((hone hsize).1 ▸ hb)
        · exact hmore hsize (hp _ hb)
      rw [if_neg hb, if_neg hc]
      rfl

/-- The bytes of a text are those of its characters, one after the other. -/
theorem textBytes_eq (text : String) :
    textBytes text = text.toList.flatMap String.utf8EncodeChar := by
  rw [textBytes, ← String.utf8Encode_toList, List.utf8Encode, List.toList_data_toByteArray]

/-- The number of bytes is the sum of the sizes of the characters. -/
theorem length_bytes (cs : List Char) :
    (cs.flatMap String.utf8EncodeChar).length = byteLength cs := by
  rw [← size_utf8Encode, List.utf8Encode, List.size_toByteArray]

theorem length_textBytes (text : String) : (textBytes text).length = byteLength text.toList := by
  rw [textBytes_eq, length_bytes]

/-- Bytes that encode characters are decoded to these. -/
theorem fromUTF8?_utf8Encode (chars : List Char) :
    String.fromUTF8? chars.utf8Encode = some (String.ofList chars) := by
  rw [String.fromUTF8?, dif_pos ByteArray.isValidUTF8_utf8Encode]
  rfl

/-- No token starts with a character of more than one byte, and no blank is one. -/
theorem not_starts_of_utf8Size {c : Char} (h : c.utf8Size ≠ 1) :
    isBlank c = false ∧ Token.ofChar? c = none ∧ (c.isDigit || c = '.') = false ∧
      isIdentifierStart c = false := by
  refine ⟨Bool.eq_false_iff.mpr fun hblank ↦ h (utf8Size_of_isBlank hblank),
    Option.eq_none_iff_forall_ne_some.mpr fun token hsign ↦ h (utf8Size_of_ofChar? hsign),
    Bool.eq_false_iff.mpr fun hnumber ↦ ?_, Bool.eq_false_iff.mpr fun hstart ↦
      h (utf8Size_of_isIdentifierRest (isIdentifierRest_of_isIdentifierStart hstart))⟩
  obtain hdigit | rfl : c.isDigit ∨ c = '.' := by simpa using hnumber
  · exact h (utf8Size_of_isDigit hdigit)
  · exact h rfl

/-! ### Places of characters -/

/-- The characters are those of the text from the index on. -/
def StartsAt (text : String) (index : Nat) (cs : List Char) : Prop :=
  ∃ before, text.toList = before ++ cs ∧ index = byteLength before

/-- The first byte is the first one of the first character. -/
theorem startsAt_zero (text : String) : StartsAt text 0 text.toList := ⟨[], rfl, rfl⟩

/-- What is read where a character starts that is no blank, if the character and those after it are
read as given. -/
def outcomeAt (index : Nat) :
    Except ParseCause (Token × List Char) → Except ParseError (Option Token × Nat)
  | .error cause => .error ⟨cause, index⟩
  | .ok (token, chars) => .ok (some token, index + byteLength chars)

namespace StartsAt

variable {text : String} {index : Nat} {cs chars rest : List Char} {c : Char}

/-- After some characters, the next one starts that many bytes on. -/
theorem append (h : StartsAt text index (chars ++ rest)) :
    StartsAt text (index + byteLength chars) rest := by
  obtain ⟨before, htext, rfl⟩ := h
  exact ⟨before ++ chars, by rw [htext, List.append_assoc], by rw [byteLength_append]⟩

/-- After some of the characters there are the others. -/
theorem drop (h : StartsAt text index cs) (hchars : chars <+: cs) :
    StartsAt text (index + byteLength chars) (cs.drop chars.length) := by
  obtain ⟨rest, rfl⟩ := hchars
  rw [List.drop_left]
  exact h.append

/-- After a character of one byte, the next one starts one byte on. -/
theorem cons (h : StartsAt text index (c :: cs)) (hc : c.utf8Size = 1) :
    StartsAt text (index + 1) cs := by
  have hnext : StartsAt text (index + byteLength [c]) cs := h.append
  rwa [byteLength_cons, byteLength_nil, hc] at hnext

/-- From a place on there are as many bytes as the remaining characters have. -/
theorem length_eq (h : StartsAt text index cs) :
    (textBytes text).length = index + byteLength cs := by
  obtain ⟨before, htext, rfl⟩ := h
  rw [length_textBytes, htext, byteLength_append]

/-- From a place on, the bytes are those of the remaining characters. -/
theorem bytesFrom?_eq (h : StartsAt text index cs) :
    bytesFrom? text index = some (cs.flatMap String.utf8EncodeChar) := by
  have hle : index ≤ (textBytes text).length := by
    rw [h.length_eq]
    exact Nat.le_add_right _ _
  obtain ⟨before, htext, rfl⟩ := h
  rw [bytesFrom?, if_pos hle, textBytes_eq, htext, List.flatMap_append, ← length_bytes,
    List.drop_left]

/-- The byte at a place is the first one of the character there. -/
theorem charAt?_eq (h : StartsAt text index cs) :
    charAt? text index = (cs.flatMap String.utf8EncodeChar).head?.map byteChar := by
  obtain ⟨before, htext, rfl⟩ := h
  rw [charAt?, textBytes_eq, htext, List.flatMap_append, ← length_bytes,
    List.getElem?_append_right (Nat.le_refl _), Nat.sub_self, List.head?_eq_getElem?]

/-- Where a character of one byte starts it is looked at, and where another starts no such
character is. -/
theorem exists_charAt? (h : StartsAt text index (c :: cs)) :
    ∃ d, charAt? text index = some d ∧ (c.utf8Size = 1 → d = c) ∧
      (c.utf8Size ≠ 1 → d.utf8Size ≠ 1) := by
  obtain ⟨b, bs, hbytes, hone, hmore⟩ := exists_bytes c
  refine ⟨byteChar b, ?_, fun hsize ↦ (hone hsize).1, hmore⟩
  rw [h.charAt?_eq, List.flatMap_cons, hbytes]
  rfl

/-- Whether there is an ASCII character with a property. -/
theorem any_charAt? (h : StartsAt text index cs) {p : Char → Bool}
    (hp : ∀ c, p c → c.utf8Size = 1) : (charAt? text index).any p = cs.head?.any p := by
  cases cs with
  | nil =>
    rw [h.charAt?_eq]
    rfl
  | cons c cs =>
    obtain ⟨d, hd, hone, hmore⟩ := h.exists_charAt?
    rw [hd, List.head?_cons, Option.any_some, Option.any_some]
    by_cases hsize : c.utf8Size = 1
    · rw [hone hsize]
    · rw [Bool.eq_false_iff.mpr fun hc ↦ hsize (hp c hc),
        Bool.eq_false_iff.mpr fun hd ↦ hmore hsize (hp d hd)]

/-- Whether an ASCII character is there. -/
theorem charAt?_eq_some_iff (h : StartsAt text index cs) {d : Char} (hd : d.utf8Size = 1) :
    charAt? text index = some d ↔ cs.head? = some d := by
  have hiff (o : Option Char) : o = some d ↔ o.any (· == d) = true := by
    cases o <;> simp
  have hsingle (c : Char) (hc : (c == d) = true) : c.utf8Size = 1 := beq_iff_eq.mp hc ▸ hd
  rw [hiff, hiff, h.any_charAt? hsingle]

/-! ### Ends of tokens -/

/-- A run of ASCII characters ends where the run among the bytes ends. -/
theorem runEnd?_eq (h : StartsAt text index cs) {p : Char → Bool}
    (hp : ∀ c, p c → c.utf8Size = 1) :
    runEnd? p text index = some (index + byteLength (cs.takeWhile p)) := by
  rw [runEnd?, h.bytesFrom?_eq]
  dsimp only
  rw [length_takeWhile_bytes hp]

/-- A fraction ends at the place where its characters end. -/
theorem fractionEnd?_eq (h : StartsAt text index cs) :
    fractionEnd? text index = some (index + byteLength (Numeral.scanFraction cs)) := by
  unfold fractionEnd?
  split
  · next hpoint =>
    obtain ⟨rest, rfl⟩ := List.head?_eq_some_iff.mp ((h.charAt?_eq_some_iff rfl).mp hpoint)
    rw [(h.cons rfl).runEnd?_eq fun c ↦ utf8Size_of_isDigit, Nat.add_assoc]
    rfl
  · next hpoint =>
    rw [Numeral.scanFraction_of_head?_ne (mt (h.charAt?_eq_some_iff rfl).mpr hpoint)]
    rfl

/-- The digits of an exponent start after its mark and its sign. -/
theorem exponentDigits_eq (h : StartsAt text index (c :: cs)) (hc : c.utf8Size = 1) :
    exponentDigits text index = index + byteLength (c :: Numeral.scanSign cs) := by
  have hsign (d : Char) (hd : (d = '+' || d = '-') = true) : d.utf8Size = 1 := by
    obtain rfl | rfl : d = '+' ∨ d = '-' := by simpa using hd
    · rfl
    · rfl
  rw [exponentDigits, (h.cons hc).any_charAt? hsign, byteLength_cons, hc, byteLength_scanSign]
  split <;> rfl

theorem exponentEnd?_eq (h : StartsAt text index cs) :
    exponentEnd? text index = some (index + byteLength (Numeral.scanExponent cs)) := by
  rw [exponentEnd?, h.any_charAt? fun c ↦ utf8Size_of_isMark]
  cases cs with
  | nil => rfl
  | cons mark cs =>
    rw [List.head?_cons, Option.any_some, Numeral.scanExponent]
    by_cases hmark : Numeral.isMark mark = true
    · -- After the mark and the sign there are the digits, if there are any.
      have hdigits : StartsAt text (exponentDigits text index)
          (cs.drop (Numeral.scanSign cs).length) := by
        rw [h.exponentDigits_eq (utf8Size_of_isMark hmark)]
        exact h.drop ((List.prefix_cons_inj mark).mpr (Numeral.isPrefix_scanSign cs))
      rw [hdigits.any_charAt? fun c ↦ utf8Size_of_isDigit, ← isEmpty_takeWhile,
        hdigits.runEnd?_eq fun c ↦ utf8Size_of_isDigit]
      split
      · rw [h.exponentDigits_eq (utf8Size_of_isMark hmark), ← List.cons_append, byteLength_append,
          Nat.add_assoc]
      · rfl
    · rw [Bool.eq_false_iff.mpr hmark]
      rfl

/-- The end of a number that is found among the bytes is that of the numeral. -/
theorem numberEnd?_eq (h : StartsAt text index cs) :
    numberEnd? text index = some (index + byteLength (Numeral.scan cs).text) := by
  have hwhole : StartsAt text (index + byteLength (Numeral.scan cs).whole)
      (cs.drop (Numeral.scan cs).whole.length) := h.drop (List.takeWhile_prefix Char.isDigit)
  have hfraction : StartsAt text
      (index + byteLength (Numeral.scan cs).whole + byteLength (Numeral.scan cs).fraction)
      ((cs.drop (Numeral.scan cs).whole.length).drop (Numeral.scan cs).fraction.length) :=
    hwhole.drop (Numeral.isPrefix_scanFraction _)
  have hwholeEnd : runEnd? Char.isDigit text index =
      some (index + byteLength (Numeral.scan cs).whole) :=
    h.runEnd?_eq fun c ↦ utf8Size_of_isDigit
  have hfractionEnd : fractionEnd? text (index + byteLength (Numeral.scan cs).whole) =
      some (index + byteLength (Numeral.scan cs).whole + byteLength (Numeral.scan cs).fraction) :=
    hwhole.fractionEnd?_eq
  rw [numberEnd?, hwholeEnd]
  dsimp only
  rw [hfractionEnd]
  dsimp only
  rw [hfraction.exponentEnd?_eq, Numeral.text, byteLength_append, byteLength_append,
    ← Nat.add_assoc, ← Nat.add_assoc]
  rfl

/-! ### Slices -/

/-- **Slices of characters.** From a place on, the slice of some characters is taken. -/
theorem slice?_eq (h : StartsAt text index (chars ++ rest)) :
    slice? text index (index + byteLength chars) = some (String.ofList chars) := by
  obtain ⟨before, htext, rfl⟩ := h
  have hslice := isSlice_of_toList_eq (htext.trans (List.append_assoc before chars rest).symm)
  rw [slice?, String.Pos.Raw.isValid_eq_true_iff.mpr hslice.start,
    String.Pos.Raw.isValid_eq_true_iff.mpr hslice.stop, hslice.bytes, if_pos (by simp),
    fromUTF8?_utf8Encode]

/-- A slice over whole characters is the text of these. -/
theorem slice?_prefix (h : StartsAt text index cs) (hchars : chars <+: cs) :
    slice? text index (index + byteLength chars) = some (String.ofList chars) := by
  obtain ⟨rest, rfl⟩ := hchars
  exact h.slice?_eq

/-! ### Reading at a place -/

/-- A number is sliced and read as it is from the characters. -/
theorem numberAt?_eq (h : StartsAt text index (c :: cs)) (hc : c.isDigit ∨ c = '.') :
    numberAt? text index = some (outcomeAt index (Token.read c cs)) := by
  obtain ⟨hsign, -⟩ := ofChar?_eq_none_of_numeral hc
  have hshaped := Numeral.isShaped_scan (c :: cs)
  have hbegins := Numeral.isPrefix_text_scan (c :: cs)
  have hnumber : (c.isDigit || c = '.') = true := by simpa using hc
  rw [numberAt?, h.numberEnd?_eq]
  dsimp only
  rw [h.slice?_prefix hbegins, Token.read, hsign]
  dsimp only
  rw [if_pos hnumber, String.toList_ofList, hshaped.readNumber?_text]
  by_cases hpoint : (Numeral.scan (c :: cs)).text = ['.']
  · -- A lone point denotes nothing.
    have hscan : Numeral.scan (c :: cs) = ⟨[], ['.'], []⟩ := by
      rw [← hshaped.scan_text, hpoint]
      rfl
    obtain rfl : '.' = c := by
      rw [hpoint] at hbegins
      exact (List.cons_prefix_cons.mp hbegins).1
    rw [hscan]
    rfl
  · have hne : String.ofList (Numeral.scan (c :: cs)).text ≠ "." := fun heq ↦
      hpoint (by rw [← String.toList_ofList (l := (Numeral.scan (c :: cs)).text), heq]; rfl)
    rw [if_neg hne, if_neg hpoint]
    cases (Numeral.scan (c :: cs)).decimal? <;> rfl

theorem identifierAt?_eq (h : StartsAt text index (c :: cs)) (hc : isIdentifierStart c) :
    identifierAt? text index = some (outcomeAt index (Token.read c cs)) := by
  have hrun : (c :: cs).takeWhile isIdentifierRest = c :: cs.takeWhile isIdentifierRest := by
    rw [List.takeWhile_cons, if_pos (isIdentifierRest_of_isIdentifierStart hc)]
  rw [identifierAt?, h.runEnd?_eq fun c ↦ utf8Size_of_isIdentifierRest]
  dsimp only
  rw [h.slice?_prefix (List.takeWhile_prefix _), hrun, read_word hc]
  rfl

/-- A character that starts no token is sliced as a whole, however many bytes it has. -/
theorem unexpectedAt?_eq (h : StartsAt text index (c :: cs)) (d : Char) :
    unexpectedAt? text index d = some (.error ⟨.unexpectedCharacter c, index⟩) := by
  rw [unexpectedAt?, h.length_eq, h.slice?_prefix (List.prefix_refl _)]
  dsimp only
  rw [String.toList_ofList, List.head?_cons, Option.getD_some]

/-- **Reading bytes is reading characters.** No slice fails. -/
theorem readAt?_eq (h : StartsAt text index (c :: cs)) {d : Char}
    (hd : charAt? text index = some d) :
    readAt? text index d = some (if isBlank c then .ok (none, index + 1)
      else outcomeAt index (Token.read c cs)) := by
  obtain ⟨d', hd', hone, hmore⟩ := h.exists_charAt?
  obtain rfl : d' = d := Option.some.inj (hd'.symm.trans hd)
  by_cases hsize : c.utf8Size = 1
  · obtain rfl := hone hsize
    unfold readAt?
    split
    · rfl
    split
    · next token hsign =>
      rw [Token.read, hsign]
      show _ = some (Except.ok (some token, index + byteLength [d']))
      rw [byteLength_cons, hsize]
      rfl
    split
    · next hnumber => exact h.numberAt?_eq (by simpa using hnumber)
    split
    · next hstart => exact h.identifierAt?_eq hstart
    · next hsign hnumber hstart =>
      rw [h.unexpectedAt?_eq, Token.read, hsign]
      dsimp only
      rw [if_neg hnumber, if_neg hstart]
      rfl
  · obtain ⟨hblank, hsign, hnumber, hstart⟩ := not_starts_of_utf8Size hsize
    obtain ⟨hblank', hsign', hnumber', hstart'⟩ := not_starts_of_utf8Size (hmore hsize)
    rw [readAt?, hblank', hsign', Token.read, hsign, hblank]
    dsimp only
    rw [hnumber', hstart', hnumber, hstart]
    exact h.unexpectedAt?_eq d'

end StartsAt

/-- One step of the tokenizer, at a place where there is a byte. -/
theorem scanBytesFrom_of_charAt? {text : String} {index : Nat} {c : Char}
    (h : charAt? text index = some c) (found : List Lexeme) :
    scanBytesFrom text found index =
      match readAt? text index c with
      | none => none
      | some (.error e) => some (.error e)
      | some (.ok (none, next)) => scanBytesFrom text found next
      | some (.ok (some token, next)) => scanBytesFrom text (found ++ [⟨token, index⟩]) next := by
  obtain ⟨b, hb, rfl⟩ := Option.map_eq_some_iff.mp h
  obtain ⟨hlt, rfl⟩ := List.getElem?_eq_some_iff.mp hb
  rw [scanBytesFrom, dif_pos hlt]
  split <;> next hread => rw [hread]

namespace StartsAt

variable {text : String} {index : Nat} {c : Char} {cs chars : List Char} {token : Token}

/-- After a token there is the place of a character again. -/
theorem of_read (h : StartsAt text index (c :: cs)) (hread : Token.read c cs = .ok (token, chars)) :
    StartsAt text (index + byteLength chars) (cs.drop (chars.length - 1)) := by
  obtain ⟨rest, htext, hlexeme⟩ := exists_isLexeme_of_read hread
  obtain ⟨d, ds, rfl, -⟩ := hlexeme.exists_read
  exact h.drop ⟨rest, htext.symm⟩

/-- After a token the tokenizer goes on at the place where the token ends. -/
theorem scanBytesFrom_of_read (h : StartsAt text index (c :: cs)) (hblank : ¬isBlank c)
    (hread : Token.read c cs = .ok (token, chars)) (found : List Lexeme) :
    scanBytesFrom text found index =
      scanBytesFrom text (found ++ [⟨token, index⟩]) (index + byteLength chars) := by
  obtain ⟨d, hd, -⟩ := h.exists_charAt?
  rw [scanBytesFrom_of_charAt? hd, h.readAt?_eq hd, if_neg hblank, hread]
  rfl

/-- From a place on, the loop finds what is found in the characters. -/
theorem scanBytesFrom_eq (h : StartsAt text index cs) (found : List Lexeme) :
    scanBytesFrom text found index = some ((scanFrom cs index).map (found ++ ·)) := by
  fun_induction scanFrom cs index generalizing found with
  | case1 index =>
    have hend : ¬index < (textBytes text).length := by
      rw [h.length_eq]
      exact Nat.lt_irrefl _
    rw [scanBytesFrom, dif_neg hend, Except.map, List.append_nil]
  | case2 index c cs hblank ih =>
    obtain ⟨d, hd, -⟩ := h.exists_charAt?
    rw [scanBytesFrom_of_charAt? hd, h.readAt?_eq hd, if_pos hblank]
    exact ih (h.cons (utf8Size_of_isBlank hblank)) found
  | case3 index c cs hblank cause hread =>
    obtain ⟨d, hd, -⟩ := h.exists_charAt?
    rw [scanBytesFrom_of_charAt? hd, h.readAt?_eq hd, if_neg hblank, hread]
    rfl
  | case4 index c cs hblank token chars hread e hscan ih =>
    rw [h.scanBytesFrom_of_read hblank hread, ih (h.of_read hread), hscan]
    rfl
  | case5 index c cs hblank token chars hread lexemes hscan ih =>
    rw [h.scanBytesFrom_of_read hblank hread, ih (h.of_read hread), hscan, Except.map, Except.map,
      List.append_assoc, List.singleton_append]

end StartsAt

/-- **No slice fails.** Scanning bytes finds what scanning characters finds. -/
theorem scanBytes_eq (text : String) : scanBytes text = some (scan text) := by
  have hall := (startsAt_zero text).scanBytesFrom_eq []
  rw [scanBytes, hall, scan]
  cases scanFrom text.toList 0 <;> rfl

/-- **Scanning bytes finds the one reading of a text.** No slice fails, and every step takes at
least one byte. Lexemes are found if they and blanks make up the whole text, and an error is
reported at the first place where no token can be read. Each lexeme is as long as can be and stands
at its offset, after those before it; and the number that a lexeme has to be is one exactly if there
is a digit before its exponent. -/
theorem scanBytes_eq_iff (text : String) :
    scanBytes text = some (scan text) ∧
    (∀ index c token? next, charAt? text index = some c →
      readAt? text index c = some (.ok (token?, next)) → index < next) ∧
    (∀ lexemes, scanBytes text = some (.ok lexemes) ↔
      Scanned text.toList 0 lexemes [] text.utf8ByteSize) ∧
    (∀ e, scanBytes text = some (.error e) ↔
      ∃ lexemes rest, Scanned text.toList 0 lexemes rest e.offset ∧ Unreadable rest ∧
        Offends rest e.cause) ∧
    (∀ lexemes rest stop, Scanned text.toList 0 lexemes rest stop →
      lexemes.Pairwise (fun first second ↦ first.offset < second.offset) ∧
      IsSlice text stop rest ∧
      ∀ lexeme ∈ lexemes, ∃ before chars after, text.toList = before ++ chars ++ after ∧
        lexeme.offset = byteLength before ∧ IsLexeme lexeme.token chars after ∧
        0 < byteLength chars ∧ IsSlice text lexeme.offset chars) ∧
    ∀ n : Numeral, n.IsShaped →
      ((readNumber? n.text).isSome ↔ ∃ c ∈ n.whole ++ n.fraction, c.isDigit) := by
  refine ⟨scanBytes_eq text, fun index c token? next ↦ lt_of_readAt?, fun lexemes ↦ ?_,
    fun e ↦ ?_, ?_, fun n hn ↦ hn.isSome_readNumber?_iff⟩
  · rw [scanBytes_eq, Option.some.injEq, scan_eq_ok_iff]
  · rw [scanBytes_eq, Option.some.injEq, scan_eq_error_iff]
  intro lexemes rest stop h
  obtain ⟨passed, htext, rfl⟩ := h.exists_passed
  refine ⟨h.increasing.1, ?_, fun lexeme hmem ↦ ?_⟩
  · rw [Nat.zero_add]
    rw [← List.append_nil (passed ++ rest)] at htext
    exact isSlice_of_toList_eq htext
  · obtain ⟨before, chars, after, htext, hoffset, hlexeme⟩ := h.exists_of_mem hmem
    rw [Nat.zero_add] at hoffset
    exact ⟨before, chars, after, htext, hoffset, hlexeme, hlexeme.byteLength_pos,
      hoffset ▸ isSlice_of_toList_eq htext⟩

/-- A mark and a sign without digits are no exponent, so that the point before them stands alone. A
point and an exponent have the shape of a number and are none. -/
theorem scanBytes_eq_iff_point :
    scanBytes "x .e+é" = some (.error ⟨.unexpectedCharacter '.', 2⟩) ∧
    (charAt? "x .e+é" 0 = some 'x' ∧
      readAt? "x .e+é" 0 'x' = some (.ok (some (.identifier "x"), 1)) ∧ 0 < 1) ∧
    (∃ lexemes rest, Scanned "x .e+é".toList 0 lexemes rest 2 ∧ Unreadable rest ∧
      Offends rest (.unexpectedCharacter '.') ∧ IsSlice "x .e+é" 2 rest) ∧
    Numeral.IsShaped ⟨[], ['.'], ['e', '5']⟩ ∧ ¬ (readNumber? ['.', 'e', '5']).isSome := by
  have hscan : scan "x .e+é" = .error ⟨.unexpectedCharacter '.', 2⟩ := by cbv
  have hchar : charAt? "x .e+é" 0 = some 'x' := by decide +kernel
  have hread : readAt? "x .e+é" 0 'x' = some (.ok (some (.identifier "x"), 1)) := by
    cbv
  have hshaped : Numeral.IsShaped ⟨[], ['.'], ['e', '5']⟩ :=
    ⟨by simp, .inr ⟨[], rfl, by simp⟩, .inr ⟨'e', [], ['5'], rfl, rfl, .inl rfl, by simp, by simp⟩⟩
  obtain ⟨hbytes, hstep, -, herror, hplaces, hnumbers⟩ := scanBytes_eq_iff "x .e+é"
  rw [hscan] at hbytes
  obtain ⟨lexemes, rest, hscanned, hrest, hoffends⟩ := (herror _).mp hbytes
  refine ⟨hbytes, ⟨hchar, hread, hstep 0 'x' _ 1 hchar hread⟩,
    ⟨lexemes, rest, hscanned, hrest, hoffends, (hplaces _ _ _ hscanned).2.1⟩, hshaped, fun h ↦ ?_⟩
  obtain ⟨c, hc, hdigit⟩ := (hnumbers _ hshaped).mp h
  obtain rfl : c = '.' := by simpa using hc
  cases hdigit

end Tradeoff
