import Tradeoff.Proofs.Decimal.Shape
import Tradeoff.Proofs.Formula.Spacing

/-!
# The lexemes of a text

Every text is split in one way: into blanks and lexemes, each as long as it can be (`IsLexeme`), up
to the end of the text or to the first place where no token can be read (`Scanned`, `Unreadable`).
`scan` finds this (`scan_eq_ok_iff`), and in the second case what it reports is what is wrong there
(`scan_eq_error_iff`).

The relations are about characters, and offsets count bytes. The two are brought together by what
lies before a place: its length in bytes is the offset, so that every offset is a boundary between
characters and every lexeme is a slice of the bytes of the text (`IsSlice`).
-/

namespace Tradeoff

/-! ### Bytes -/

@[simp] theorem byteLength_nil : byteLength [] = 0 := rfl

@[simp] theorem byteLength_cons (c : Char) (cs : List Char) :
    byteLength (c :: cs) = c.utf8Size + byteLength cs := rfl

@[simp] theorem byteLength_append (cs ds : List Char) :
    byteLength (cs ++ ds) = byteLength cs + byteLength ds := by
  induction cs with
  | nil => simp
  | cons c cs ih => rw [List.cons_append, byteLength_cons, ih, byteLength_cons, Nat.add_assoc]

theorem byteLength_pos {cs : List Char} (h : cs ≠ []) : 0 < byteLength cs := by
  obtain ⟨c, cs, rfl⟩ := List.exists_cons_of_ne_nil h
  exact Nat.add_pos_left c.utf8Size_pos _

/-- The encoding has the length in bytes. -/
theorem size_utf8Encode (cs : List Char) : cs.utf8Encode.size = byteLength cs := by
  induction cs with
  | nil => rfl
  | cons c cs ih =>
    rw [List.utf8Encode_cons, ByteArray.size_append, ih, List.utf8Encode_singleton,
      List.size_toByteArray, String.length_utf8EncodeChar, byteLength_cons]

/-- The bytes from the offset on are those of the characters, and begin and end between
characters. -/
structure IsSlice (text : String) (offset : Nat) (chars : List Char) : Prop where
  /-- The characters begin where one begins. -/
  start : (⟨offset⟩ : String.Pos.Raw).IsValid text
  /-- They end where one ends. -/
  stop : (⟨offset + byteLength chars⟩ : String.Pos.Raw).IsValid text
  /-- Between these places are their bytes. -/
  bytes : text.toByteArray.extract offset (offset + byteLength chars) = chars.utf8Encode

/-- What lies before a boundary between characters takes a valid position. -/
theorem isValid_of_toList_eq {text : String} {before after : List Char}
    (h : text.toList = before ++ after) : (⟨byteLength before⟩ : String.Pos.Raw).IsValid text := by
  refine String.Pos.Raw.isValid_iff_exists_append.mpr
    ⟨String.ofList before, String.ofList after, ?_, ?_⟩
  · rw [← String.ofList_append, ← h, String.ofList_toList]
  · apply String.Pos.Raw.ext
    rw [String.byteIdx_rawEndPos, ← String.size_toByteArray, String.toByteArray_ofList,
      size_utf8Encode]

/-- Characters between two boundaries are a slice. -/
theorem isSlice_of_toList_eq {text : String} {before chars after : List Char}
    (h : text.toList = before ++ chars ++ after) : IsSlice text (byteLength before) chars where
  start := isValid_of_toList_eq (h.trans (List.append_assoc before chars after))
  stop := byteLength_append before chars ▸ isValid_of_toList_eq h
  bytes := by
    have hbytes : text.toByteArray =
        before.utf8Encode ++ (chars.utf8Encode ++ after.utf8Encode) := by
      rw [← String.utf8Encode_toList, h, List.append_assoc, List.utf8Encode_append,
        List.utf8Encode_append]
    rw [hbytes, ← size_utf8Encode before, ← size_utf8Encode chars]
    exact (ByteArray.extract_append_size_add (i := 0)).trans (ByteArray.extract_append_eq_left rfl)

/-! ### Lexemes -/

/-- The characters are the lexeme of the token where `rest` follows: nothing longer is one. -/
inductive IsLexeme : Token → List Char → List Char → Prop where
  /-- A sign is its own text. -/
  | sign {token : Token} {rest : List Char} :
      token.isWord = false → IsLexeme token token.text.toList rest
  /-- An identifier is the longest run of its characters. -/
  | identifier {chars rest : List Char} :
      IsLongest (fun cs ↦ IsName (String.ofList cs)) chars (chars ++ rest) →
      IsLexeme (.identifier (String.ofList chars)) chars rest
  /-- A number is the longest beginning that has its shape. -/
  | number {value : Float} {chars rest : List Char} :
      IsLongest Numeral.HasShape chars (chars ++ rest) → readNumber? chars = some value →
      IsLexeme (.number value) chars rest

/-- No token starts where the characters start, and no blank does. -/
def Unreadable (cs : List Char) : Prop :=
  ∃ c rest, cs = c :: rest ∧ isBlank c = false ∧
    ∀ token chars after, cs = chars ++ after → ¬ IsLexeme token chars after

/-- What is wrong with characters that start with no token: a point is directly followed by an
exponent, or else it is the first of them. -/
inductive Offends : List Char → ParseCause → Prop where
  /-- A point and an exponent are no number. -/
  | number {exponent cs : List Char} :
      Numeral.IsExponent exponent → IsLongest Numeral.HasShape ('.' :: exponent) cs →
      Offends cs (.invalidNumber (String.ofList ('.' :: exponent)))
  /-- Any other character starts no token. -/
  | character {c : Char} {cs : List Char} :
      (∀ exponent, Numeral.IsExponent exponent → ¬ '.' :: exponent <+: c :: cs) →
      Offends (c :: cs) (.unexpectedCharacter c)

/-! ### Reading one lexeme -/

/-- The tokens of one character are those that are no words. -/
theorem ofChar?_eq_some_iff {c : Char} {token : Token} :
    Token.ofChar? c = some token ↔ token.isWord = false ∧ token.text.toList = [c] := by
  constructor
  · intro h
    unfold Token.ofChar? at h
    split at h <;> cases h <;> exact ⟨rfl, rfl⟩
  · rintro ⟨hword, htext⟩
    cases token with
    | number value => cases hword
    | identifier name => cases hword
    | _ =>
      obtain rfl := List.singleton_inj.mp htext
      rfl

/-- A word is as long as it can be. -/
theorem isLongest_word {c : Char} (h : isIdentifierStart c) (cs : List Char) :
    IsLongest (fun chars ↦ IsName (String.ofList chars)) (c :: cs.takeWhile isIdentifierRest)
      (c :: cs) := by
  have hrun := isLongest_takeWhile isIdentifierRest cs
  refine ⟨⟨c, _, String.toList_ofList, h, hrun.holds⟩, (List.prefix_cons_inj c).mpr hrun.begins, ?_⟩
  rintro other hother ⟨d, ds, htext, -, hds⟩
  rw [String.toList_ofList] at htext
  subst htext
  exact Nat.succ_le_succ (hrun.length_le ds (List.cons_prefix_cons.mp hother).2 hds)

/-- The characters of a numeral that is a number start with a digit or a point. -/
theorem exists_cons_of_readNumber? {chars : List Char} {value : Float}
    (hshape : Numeral.HasShape chars) (hvalue : readNumber? chars = some value) :
    ∃ c cs, chars = c :: cs ∧ (c.isDigit ∨ c = '.') := by
  obtain ⟨n, hn, rfl⟩ := hshape
  obtain ⟨c, hc, -⟩ := hn.isSome_readNumber?_iff.mp (Option.isSome_iff_exists.mpr ⟨value, hvalue⟩)
  obtain ⟨c, cs, hcons⟩ := List.exists_cons_of_ne_nil (List.ne_nil_of_mem hc)
  refine ⟨c, cs ++ n.exponent, by rw [Numeral.text, hcons, List.cons_append], ?_⟩
  rcases h : n.whole with _ | ⟨d, ds⟩
  · rw [h, List.nil_append] at hcons
    obtain hfraction | ⟨places, hfraction, -⟩ := hn.fraction
    · rw [hfraction] at hcons
      cases hcons
    · rw [hfraction] at hcons
      exact .inr (List.cons.inj hcons).1.symm
  · rw [h, List.cons_append] at hcons
    obtain rfl := (List.cons.inj hcons).1
    exact .inl (hn.whole d (h ▸ List.mem_cons_self))

/-- Where a number may start, no sign and no blank does. -/
theorem ofChar?_eq_none_of_numeral {c : Char} (h : c.isDigit ∨ c = '.') :
    Token.ofChar? c = none ∧ isBlank c = false := by
  rcases h with hdigit | rfl
  · have hword : isIdentifierRest c := by simp [isIdentifierRest, Char.isAlphanum, hdigit]
    exact ⟨ofChar?_eq_none hword, isBlank_eq_false hword⟩
  · exact ⟨rfl, rfl⟩

/-- A lexeme is read. -/
theorem IsLexeme.exists_read {token : Token} {chars rest : List Char}
    (h : IsLexeme token chars rest) :
    ∃ c cs, chars = c :: cs ∧ isBlank c = false ∧
      Token.read c (cs ++ rest) = .ok (token, chars) := by
  cases h with
  | sign hword =>
    obtain ⟨c, htext, -⟩ := exists_sign hword
    have hc := ofChar?_eq_some_iff.mpr ⟨hword, htext⟩
    refine ⟨c, [], htext, ?_, ?_⟩
    · unfold Token.ofChar? at hc
      split at hc <;> first | rfl | cases hc
    · rw [Token.read, hc, htext]
  | identifier hlongest =>
    obtain ⟨c, cs, htext, hstart, -⟩ := hlongest.holds
    rw [String.toList_ofList] at htext
    subst htext
    have hword := hlongest.unique (isLongest_word hstart (cs ++ rest))
    refine ⟨c, cs, rfl, isBlank_eq_false (isIdentifierRest_of_isIdentifierStart hstart), ?_⟩
    rw [read_word hstart, ← hword]
  | number hlongest hvalue =>
    obtain ⟨c, cs, rfl, hc⟩ := exists_cons_of_readNumber? hlongest.holds hvalue
    obtain ⟨hsign, hblank⟩ := ofChar?_eq_none_of_numeral hc
    have htext : c :: cs = (Numeral.scan (c :: (cs ++ rest))).text :=
      hlongest.unique (Numeral.isLongest_text_scan _)
    rw [htext, (Numeral.isShaped_scan _).readNumber?_text, Option.map_eq_some_iff] at hvalue
    obtain ⟨d, hd, rfl⟩ := hvalue
    refine ⟨c, cs, rfl, hblank, ?_⟩
    simp [Token.read, hsign, hc, hd, ← htext]

/-- What is read is a lexeme. -/
theorem exists_isLexeme_of_read {c : Char} {cs chars : List Char} {token : Token}
    (h : Token.read c cs = .ok (token, chars)) :
    ∃ rest, c :: cs = chars ++ rest ∧ IsLexeme token chars rest := by
  unfold Token.read at h
  split at h
  · next hsign =>
    cases h
    obtain ⟨hword, htext⟩ := ofChar?_eq_some_iff.mp hsign
    exact ⟨cs, rfl, htext ▸ .sign hword⟩
  split at h
  · have hlongest := Numeral.isLongest_text_scan (c :: cs)
    obtain ⟨rest, hrest⟩ := hlongest.begins
    dsimp only at h
    split at h
    · next d hd =>
      cases h
      refine ⟨rest, hrest.symm, .number (hrest.symm ▸ hlongest) ?_⟩
      rw [(Numeral.isShaped_scan _).readNumber?_text, hd, Option.map_some]
    · split at h <;> cases h
  split at h
  · next hstart =>
    cases h
    have hlongest := isLongest_word hstart cs
    obtain ⟨rest, hrest⟩ := hlongest.begins
    exact ⟨rest, hrest.symm, .identifier (hrest.symm ▸ hlongest)⟩
  · cases h

/-- Every lexeme takes at least one byte. -/
theorem IsLexeme.byteLength_pos {token : Token} {chars rest : List Char}
    (h : IsLexeme token chars rest) : 0 < byteLength chars := by
  obtain ⟨c, cs, rfl, -⟩ := h.exists_read
  exact Tradeoff.byteLength_pos (List.cons_ne_nil c cs)

theorem utf8Size_of_isBlank {c : Char} (h : isBlank c) : c.utf8Size = 1 := by
  obtain (((rfl | rfl) | rfl) | rfl) | rfl :
      (((c = ' ' ∨ c = '\t') ∨ c = '\n') ∨ c = '\x0c') ∨ c = '\r' := by
    simpa [isBlank] using h
  all_goals rfl

/-- There is only one thing wrong in one place. -/
theorem Offends.unique {cs : List Char} {cause cause' : ParseCause} (h : Offends cs cause)
    (h' : Offends cs cause') : cause = cause' := by
  cases h with
  | number hexponent hlongest =>
    cases h' with
    | number _ hlongest' => rw [hlongest.unique hlongest']
    | character hnone => exact absurd hlongest.begins (hnone _ hexponent)
  | character hnone =>
    cases h' with
    | number hexponent hlongest => exact absurd hlongest.begins (hnone _ hexponent)
    | character => rfl

/-- A numeral that denotes nothing is a lone point or a point and an exponent. -/
theorem offends_of_decimal? {c : Char} {cs : List Char} (hc : c.isDigit ∨ c = '.')
    (h : (Numeral.scan (c :: cs)).decimal? = none) :
    Offends (c :: cs)
      (if (Numeral.scan (c :: cs)).text = ['.'] then .unexpectedCharacter c
        else .invalidNumber (String.ofList (Numeral.scan (c :: cs)).text)) := by
  have hlongest := Numeral.isLongest_text_scan (c :: cs)
  have hshaped := Numeral.isShaped_scan (c :: cs)
  generalize Numeral.scan (c :: cs) = n at h hlongest hshaped ⊢
  obtain ⟨hwhole, hfraction⟩ := hshaped.decimal?_eq_none_iff.mp h
  have hfraction : n.fraction = ['.'] := by
    refine hfraction.resolve_left fun hnil ↦ ?_
    have htext : n.text = n.exponent := by
      rw [Numeral.text, hwhole, hnil, List.append_nil, List.nil_append]
    have hbegins := hlongest.begins
    have hlength :=
      hlongest.length_le [c] (List.prefix_append [c] cs) (Numeral.hasShape_singleton hc)
    rw [htext] at hbegins hlength
    -- An exponent starts with its mark, which is no digit and no point.
    rcases hshaped.exponent with hempty | ⟨mark, sign, digits, hexponent, hmark, -⟩
    · rw [hempty] at hlength
      cases hlength
    · rw [hexponent] at hbegins
      obtain rfl := (List.cons_prefix_cons.mp hbegins).1
      rcases hc with hdigit | rfl
      · rw [Numeral.isDigit_of_isMark hmark] at hdigit
        cases hdigit
      · cases hmark
  have htext : n.text = '.' :: n.exponent := by
    rw [Numeral.text, hwhole, hfraction, List.nil_append, List.singleton_append]
  rw [htext] at hlongest ⊢
  split
  · next hlone =>
    refine .character fun exponent hexponent hbegins ↦ ?_
    have hle := hlongest.length_le _ hbegins
      ⟨⟨[], ['.'], exponent⟩, ⟨by simp, .inr ⟨[], rfl, by simp⟩, .inr hexponent⟩, rfl⟩
    rw [hlone] at hle
    obtain ⟨mark, sign, digits, rfl, -⟩ := hexponent
    simp at hle
  · next hlone =>
    refine .number (hshaped.exponent.resolve_left fun hnil ↦ hlone ?_) hlongest
    rw [hnil]

/-- What cannot be read offends in the way that is reported. -/
theorem offends_of_read {c : Char} {cs : List Char} {cause : ParseCause}
    (h : Token.read c cs = .error cause) : Offends (c :: cs) cause := by
  unfold Token.read at h
  split at h
  · cases h
  split at h
  · next hc =>
    dsimp only at h
    split at h
    · cases h
    · next hnone =>
      have hoffends := offends_of_decimal? (by simpa using hc) hnone
      split at h
      · next hlone =>
        cases h
        rwa [if_pos hlone] at hoffends
      · next hlone =>
        cases h
        rwa [if_neg hlone] at hoffends
  · next hc =>
    split at h
    · cases h
    · cases h
      refine .character fun exponent _ hbegins ↦ hc ?_
      rw [← (List.cons_prefix_cons.mp hbegins).1]
      rfl

/-- Where no token can be read, an error is reported. -/
theorem Unreadable.exists_offends {cs : List Char} (h : Unreadable cs) :
    ∃ cause, Offends cs cause ∧ ∀ offset, scanFrom cs offset = .error ⟨cause, offset⟩ := by
  obtain ⟨c, rest, rfl, hblank, hnone⟩ := h
  cases hread : Token.read c rest with
  | ok read =>
    obtain ⟨after, htext, hlexeme⟩ := exists_isLexeme_of_read hread
    exact absurd hlexeme (hnone _ _ _ htext)
  | error cause =>
    refine ⟨cause, offends_of_read hread, fun offset ↦ ?_⟩
    rw [scanFrom, if_neg (by simp [hblank]), hread]

/-! ### Reading all of them -/

/-- Going through the characters, which start at `offset`, passes blanks and the lexemes and ends at
`rest`, which starts at `stop`. -/
inductive Scanned : List Char → Nat → List Lexeme → List Char → Nat → Prop where
  /-- Nothing is passed. -/
  | done {cs : List Char} {offset : Nat} : Scanned cs offset [] cs offset
  /-- A blank is passed. -/
  | blank {c : Char} {cs rest : List Char} {offset stop : Nat} {lexemes : List Lexeme} :
      isBlank c → Scanned cs (offset + c.utf8Size) lexemes rest stop →
      Scanned (c :: cs) offset lexemes rest stop
  /-- A lexeme is passed. -/
  | lexeme {token : Token} {chars cs rest : List Char} {offset stop : Nat} {lexemes : List Lexeme} :
      IsLexeme token chars cs → Scanned cs (offset + byteLength chars) lexemes rest stop →
      Scanned (chars ++ cs) offset (⟨token, offset⟩ :: lexemes) rest stop

namespace Scanned

variable {cs rest : List Char} {offset stop : Nat} {lexemes : List Lexeme}

/-- What was passed lies between the two offsets. -/
theorem exists_passed (h : Scanned cs offset lexemes rest stop) :
    ∃ passed, cs = passed ++ rest ∧ stop = offset + byteLength passed := by
  induction h with
  | done => exact ⟨[], rfl, rfl⟩
  | @blank c _ _ _ _ _ _ _ ih =>
    obtain ⟨passed, rfl, rfl⟩ := ih
    exact ⟨c :: passed, rfl, by rw [byteLength_cons, Nat.add_assoc]⟩
  | @lexeme _ chars _ _ _ _ _ _ _ ih =>
    obtain ⟨passed, rfl, rfl⟩ := ih
    exact ⟨chars ++ passed, by rw [List.append_assoc], by rw [byteLength_append, Nat.add_assoc]⟩

/-- The lexemes that were passed are found, and then it goes on with the rest. -/
theorem scanFrom_eq (h : Scanned cs offset lexemes rest stop) :
    scanFrom cs offset = (scanFrom rest stop).map (lexemes ++ ·) := by
  induction h with
  | @done cs offset => cases scanFrom cs offset <;> rfl
  | blank hblank _ ih => rw [scanFrom, if_pos hblank, ← utf8Size_of_isBlank hblank, ih]
  | @lexeme token chars cs rest offset stop lexemes hlexeme _ ih =>
    obtain ⟨c, chars, rfl, hblank, hread⟩ := hlexeme.exists_read
    have hdrop : (chars ++ cs).drop ((c :: chars).length - 1) = cs := by
      rw [List.length_cons, Nat.add_sub_cancel, List.drop_left]
    rw [List.cons_append, scanFrom, if_neg (by simp [hblank]), hread]
    simp only [hdrop, ih]
    cases scanFrom rest stop <;> rfl

/-- Every lexeme starts after those before it. -/
theorem increasing (h : Scanned cs offset lexemes rest stop) :
    lexemes.Pairwise (fun first second ↦ first.offset < second.offset) ∧
      ∀ lexeme ∈ lexemes, offset ≤ lexeme.offset := by
  induction h with
  | done => simp
  | blank _ _ ih => exact ⟨ih.1, fun lexeme hmem ↦ (Nat.le_add_right _ _).trans (ih.2 lexeme hmem)⟩
  | @lexeme token chars cs rest offset stop lexemes hlexeme _ ih =>
    have hpos : 0 < byteLength chars := hlexeme.byteLength_pos
    have hafter : ∀ lexeme ∈ lexemes, offset < lexeme.offset := fun lexeme hmem ↦ by
      have := ih.2 lexeme hmem
      omega
    refine ⟨List.pairwise_cons.mpr ⟨hafter, ih.1⟩, ?_⟩
    rintro lexeme (_ | ⟨_, hmem⟩)
    · exact Nat.le_refl _
    · exact (hafter lexeme hmem).le

/-- Every lexeme is that of its token, at its offset. -/
theorem exists_of_mem (h : Scanned cs offset lexemes rest stop) {lexeme : Lexeme}
    (hmem : lexeme ∈ lexemes) :
    ∃ before chars after, cs = before ++ chars ++ after ∧
      lexeme.offset = offset + byteLength before ∧ IsLexeme lexeme.token chars after := by
  induction h with
  | done => cases hmem
  | @blank c _ _ _ _ _ _ _ ih =>
    obtain ⟨before, chars, after, rfl, hoffset, hlexeme⟩ := ih hmem
    exact ⟨c :: before, chars, after, rfl, by rw [hoffset, byteLength_cons, Nat.add_assoc], hlexeme⟩
  | @lexeme token chars cs _ _ _ _ hlexeme _ ih =>
    obtain _ | ⟨_, hmem⟩ := hmem
    · exact ⟨[], chars, cs, rfl, rfl, hlexeme⟩
    · obtain ⟨before, chars', after, rfl, hoffset, hlexeme'⟩ := ih hmem
      exact ⟨chars ++ before, chars', after, by simp only [List.append_assoc],
        by rw [hoffset, byteLength_append, Nat.add_assoc], hlexeme'⟩

end Scanned

/-- It is gone on until the text ends or no token can be read. -/
theorem exists_scanned (cs : List Char) (offset : Nat) :
    ∃ lexemes rest stop, Scanned cs offset lexemes rest stop ∧ (rest = [] ∨ Unreadable rest) := by
  induction hlength : cs.length using Nat.strongRecOn generalizing cs offset with
  | ind length ih =>
    by_cases hend : cs = [] ∨ Unreadable cs
    · exact ⟨[], cs, offset, .done, hend⟩
    obtain ⟨hne, hreadable⟩ := not_or.mp hend
    obtain ⟨c, tail, rfl⟩ := List.exists_cons_of_ne_nil hne
    by_cases hblank : isBlank c = true
    · rw [List.length_cons] at hlength
      obtain ⟨lexemes, rest, stop, hscanned, hrest⟩ :=
        ih tail.length (by omega) tail (offset + c.utf8Size) rfl
      exact ⟨lexemes, rest, stop, .blank hblank hscanned, hrest⟩
    · obtain ⟨token, chars, after, htext, hlexeme⟩ :
          ∃ token chars after, c :: tail = chars ++ after ∧ IsLexeme token chars after := by
        by_contra hnone
        exact hreadable ⟨c, tail, rfl, Bool.eq_false_iff.mpr hblank,
          fun token chars after htext hlexeme ↦ hnone ⟨token, chars, after, htext, hlexeme⟩⟩
      obtain ⟨d, ds, rfl, -⟩ := hlexeme.exists_read
      rw [htext, List.length_append, List.length_cons] at hlength
      obtain ⟨lexemes, rest, stop, hscanned, hrest⟩ :=
        ih after.length (by omega) after (offset + byteLength (d :: ds)) rfl
      refine ⟨⟨token, offset⟩ :: lexemes, rest, stop, ?_, hrest⟩
      rw [htext]
      exact .lexeme hlexeme hscanned

theorem utf8ByteSize_eq (text : String) : text.utf8ByteSize = byteLength text.toList := by
  rw [← size_utf8Encode, String.utf8Encode_toList, String.size_toByteArray]

/-- Lexemes are found if they and blanks make up the whole text. -/
theorem scan_eq_ok_iff {text : String} {lexemes : List Lexeme} :
    scan text = .ok lexemes ↔ Scanned text.toList 0 lexemes [] text.utf8ByteSize := by
  constructor
  · intro h
    obtain ⟨lexemes', rest, stop, hscanned, hrest⟩ := exists_scanned text.toList 0
    have hscan : scan text = (scanFrom rest stop).map (lexemes' ++ ·) := hscanned.scanFrom_eq
    -- Nothing was left, or else there would be an error.
    rcases hrest with rfl | hrest
    · obtain ⟨passed, htext, rfl⟩ := hscanned.exists_passed
      rw [List.append_nil] at htext
      rw [hscan, scanFrom] at h
      obtain rfl : lexemes' ++ [] = lexemes := Except.ok.inj h
      rw [utf8ByteSize_eq, htext, List.append_nil]
      rwa [htext, Nat.zero_add] at hscanned
    · obtain ⟨cause, -, herror⟩ := hrest.exists_offends
      rw [hscan, herror stop] at h
      cases h
  · intro h
    have hall : scan text = (scanFrom [] text.utf8ByteSize).map (lexemes ++ ·) := h.scanFrom_eq
    rw [hall, scanFrom, Except.map, List.append_nil]

/-- An error is reported at the first place where no token can be read. -/
theorem scan_eq_error_iff {text : String} {e : ParseError} :
    scan text = .error e ↔
      ∃ lexemes rest, Scanned text.toList 0 lexemes rest e.offset ∧ Unreadable rest ∧
        Offends rest e.cause := by
  constructor
  · intro h
    obtain ⟨lexemes, rest, stop, hscanned, hrest⟩ := exists_scanned text.toList 0
    have hscan : scan text = (scanFrom rest stop).map (lexemes ++ ·) := hscanned.scanFrom_eq
    rcases hrest with rfl | hrest
    · rw [hscan, scanFrom] at h
      cases h
    · obtain ⟨cause, hoffends, herror⟩ := hrest.exists_offends
      rw [hscan, herror stop] at h
      cases h
      exact ⟨lexemes, rest, hscanned, hrest, hoffends⟩
  · rintro ⟨lexemes, rest, hscanned, hrest, hoffends⟩
    obtain ⟨cause, hoffends', herror⟩ := hrest.exists_offends
    have hscan : scan text = (scanFrom rest e.offset).map (lexemes ++ ·) := hscanned.scanFrom_eq
    rw [hscan, herror, hoffends'.unique hoffends]
    rfl

end Tradeoff
