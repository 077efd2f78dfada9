import Tradeoff.Formula.Print
import Tradeoff.Proofs.Decimal.Numerals
import Tradeoff.Proofs.Formula.Reading

/-!
# Printed tokens are read back

A printed formula is a list of pieces: tokens with blanks around some of them. Reading splits the
text into the same tokens (`scansAs_of_separated`) if the text of each token is read as that token
(`IsReadable`) and no number or name is directly followed by another (`Separated`): each token is
read as far as possible, and only numbers and names can be read too far.
-/

namespace Tradeoff

/-! ### Tokens that are read as they are written -/

/-- The name is one identifier, or one of the truth values. -/
def IsName (name : String) : Prop :=
  ∃ c cs, name.toList = c :: cs ∧ isIdentifierStart c ∧ ∀ d ∈ cs, isIdentifierRest d

/-- Names can be recognized character by character. -/
theorem isName_iff {name : String} :
    IsName name ↔
      (name.toList.head?.any isIdentifierStart &&
        name.toList.tail.all isIdentifierRest) = true := by
  rw [Bool.and_eq_true, List.all_eq_true]
  constructor
  · rintro ⟨c, cs, htext, hstart, hrest⟩
    rw [htext]
    exact ⟨hstart, hrest⟩
  · rintro ⟨hstart, hrest⟩
    cases htext : name.toList with
    | nil =>
      rw [htext] at hstart
      cases hstart
    | cons c cs =>
      rw [htext] at hstart hrest
      exact ⟨c, cs, htext, hstart, hrest⟩

instance (name : String) : Decidable (IsName name) := decidable_of_iff _ isName_iff.symm

/-- An identifier is a name and no truth value. -/
theorem isName_of_isIdentifier {name : String} (h : isIdentifier name) :
    IsName name ∧ name ≠ "true" ∧ name ≠ "false" := by
  unfold isIdentifier at h
  split at h
  · cases h
  · next c cs htext =>
    simp only [Bool.and_eq_true, List.all_eq_true, decide_eq_true_eq] at h
    obtain ⟨⟨⟨hstart, hrest⟩, htrue⟩, hfalse⟩ := h
    exact ⟨⟨c, cs, htext, hstart, hrest⟩, htrue, hfalse⟩

theorem isName_name (op : Operator) : IsName op.name := by
  cases op <;> decide

namespace Token

/-- The token is a number or a name. -/
def isWord : Token → Bool
  | number _ | identifier _ => true
  | _ => false

/-- The text of the token is read as the token. -/
def IsReadable : Token → Prop
  | number value => value.isFinite ∧ value.abs = value
  | identifier name => IsName name
  | _ => True

end Token

/-- The characters do not go on a number or a name. -/
def EndsWord (rest : List Char) : Prop :=
  ∀ c, rest.head? = some c → isIdentifierRest c = false ∧ c ≠ '.'

/-- After a word a numeral ends too. -/
theorem EndsWord.ends {rest : List Char} (h : EndsWord rest) : Numeral.Ends rest := by
  intro c hc
  obtain ⟨hrest, hpoint⟩ := h c hc
  have hparts : (c.isAlpha = false ∧ c.isDigit = false) ∧ c ≠ '_' := by
    simpa [isIdentifierRest, Char.isAlphanum] using hrest
  -- The marks of an exponent are letters, which could go on a name as well.
  have hmark : isIdentifierRest 'e' = true ∧ isIdentifierRest 'E' = true := by decide
  refine ⟨hparts.1.2, hpoint, ?_⟩
  simp only [Numeral.isMark, Bool.or_eq_false_iff, decide_eq_false_iff_not]
  constructor
  · rintro rfl
    rw [hmark.1] at hrest
    cases hrest
  · rintro rfl
    rw [hmark.2] at hrest
    cases hrest

/-- A character that is no sign. -/
theorem ofChar?_eq_none {c : Char} (h : isIdentifierRest c) : Token.ofChar? c = none := by
  unfold Token.ofChar?
  split <;> first | rfl | exact absurd h (by decide)

/-- Nothing in a name is a blank. -/
theorem isBlank_eq_false {c : Char} (h : isIdentifierRest c) : isBlank c = false := by
  simp only [isBlank, Bool.or_eq_false_iff, decide_eq_false_iff_not]
  refine ⟨⟨⟨⟨?_, ?_⟩, ?_⟩, ?_⟩, ?_⟩ <;>
    · rintro rfl
      exact absurd h (by decide)

/-- A name starts with no digit. -/
theorem isDigit_eq_false_of_isAlpha {c : Char} (h : c.isAlpha) : c.isDigit = false := by
  rcases hdigit : c.isDigit with _ | _
  · rfl
  · have hle := (Char.isDigit_iff_toNat.mp hdigit).2
    have hnine : '9'.toNat = 57 := rfl
    simp only [Char.isAlpha, Char.isUpper, Char.isLower, Bool.or_eq_true, Bool.and_eq_true,
      decide_eq_true_eq, ge_iff_le, UInt32.le_iff_toNat_le] at h
    have hvalue : c.toNat = c.val.toNat := rfl
    have hupper : 'A'.val.toNat = 65 := rfl
    have hlower : 'a'.val.toNat = 97 := rfl
    omega

/-- No name starts with a digit. -/
theorem isDigit_eq_false_of_isIdentifierStart {c : Char} (h : isIdentifierStart c) :
    c.isDigit = false := by
  obtain halpha | rfl : c.isAlpha ∨ c = '_' := by simpa [isIdentifierStart] using h
  · exact isDigit_eq_false_of_isAlpha halpha
  · rfl

/-! ### Reading one token -/

/-- The text of a number is read as the number. -/
theorem read_number {value : Float} (h : (Token.number value).IsReadable) {rest : List Char}
    (hrest : EndsWord rest) :
    ∃ c cs, (Token.number value).text.toList = c :: cs ∧ isIdentifierRest c ∧
      Token.read c (cs ++ rest) = .ok (.number value, c :: cs) := by
  obtain ⟨hfinite, habs⟩ := h
  obtain ⟨d, hwrite, hvalue⟩ := exists_numeral hfinite
  rw [habs] at hwrite hvalue
  obtain ⟨c, cs, htext, hdigit⟩ := exists_digit_of_writePositional d
  have hword : isIdentifierRest c := by simp [isIdentifierRest, Char.isAlphanum, hdigit]
  obtain ⟨hscan, hdecimal⟩ := scan_writePositional d hrest.ends
  rw [htext, List.cons_append] at hscan hdecimal
  refine ⟨c, cs, ?_, hword, ?_⟩
  · rw [Token.text, hwrite, htext]
  · simp [Token.read, ofChar?_eq_none hword, hdigit, hdecimal, hscan, hvalue]

/-- A word is read as far as it goes. -/
theorem read_word {c : Char} (h : isIdentifierStart c) (cs : List Char) :
    Token.read c cs = .ok (.identifier (String.ofList (c :: cs.takeWhile isIdentifierRest)),
      c :: cs.takeWhile isIdentifierRest) := by
  have hdigit := isDigit_eq_false_of_isIdentifierStart h
  have hpoint : c ≠ '.' := by
    rintro rfl
    cases h
  simp [Token.read, ofChar?_eq_none (isIdentifierRest_of_isIdentifierStart h), hdigit, hpoint, h]

/-- A name is read as the name. -/
theorem read_identifier {name : String} (h : IsName name) {rest : List Char}
    (hrest : EndsWord rest) :
    ∃ c cs, name.toList = c :: cs ∧ isIdentifierRest c ∧
      Token.read c (cs ++ rest) = .ok (.identifier name, c :: cs) := by
  obtain ⟨c, cs, htext, hstart, hname⟩ := h
  have htake : (cs ++ rest).takeWhile isIdentifierRest = cs :=
    takeWhile_append_eq hname fun d hd ↦ (hrest d hd).1
  refine ⟨c, cs, htext, isIdentifierRest_of_isIdentifierStart hstart, ?_⟩
  rw [read_word hstart, htake, ← htext, String.ofList_toList]

/-! ### Reading one token after another -/

/-- The characters are read as the tokens. -/
def ScansAs (cs : List Char) (ts : List Token) : Prop :=
  ∀ offset, ∃ lexemes, scanFrom cs offset = .ok lexemes ∧ tokens lexemes = ts

namespace ScansAs

theorem nil : ScansAs [] [] := fun offset ↦ ⟨[], by rw [scanFrom], rfl⟩

/-- A blank is skipped. -/
theorem blank {cs : List Char} {ts : List Token} (h : ScansAs cs ts) : ScansAs (' ' :: cs) ts := by
  intro offset
  obtain ⟨lexemes, hscan, htokens⟩ := h (offset + 1)
  refine ⟨lexemes, ?_, htokens⟩
  rw [scanFrom, if_pos (by rfl : isBlank ' ' = true), hscan]

/-- A token before others. -/
theorem cons {c : Char} {cs rest : List Char} {token : Token} {ts : List Token}
    (hblank : isBlank c = false) (hread : Token.read c (cs ++ rest) = .ok (token, c :: cs))
    (h : ScansAs rest ts) : ScansAs (c :: cs ++ rest) (token :: ts) := by
  intro offset
  obtain ⟨lexemes, hscan, htokens⟩ := h (offset + byteLength (c :: cs))
  refine ⟨⟨token, offset⟩ :: lexemes, ?_, by rw [tokens_cons, htokens]⟩
  have hdrop : (cs ++ rest).drop ((c :: cs).length - 1) = rest := by simp
  rw [List.cons_append, scanFrom, if_neg (by simp [hblank]), hread]
  simp only [hdrop, hscan]

/-- A readable token before others. -/
theorem token {token : Token} (h : token.IsReadable) {rest : List Char} {ts : List Token}
    (hends : token.isWord = true → EndsWord rest) (hrest : ScansAs rest ts) :
    ScansAs (token.text.toList ++ rest) (token :: ts) := by
  cases token with
  | number value =>
    obtain ⟨c, cs, htext, hword, hread⟩ := read_number h (hends rfl)
    rw [htext]
    exact cons (isBlank_eq_false hword) hread hrest
  | identifier name =>
    obtain ⟨c, cs, htext, hword, hread⟩ := read_identifier h (hends rfl)
    rw [Token.text, htext]
    exact cons (isBlank_eq_false hword) hread hrest
  | _ => exact @cons _ [] _ _ _ rfl rfl hrest

end ScansAs

/-! ### Printed pieces -/

/-- The first piece is a number or a name. -/
def startsWord (ps : List Piece) : Bool := ps.head?.any (·.token.isWord)

/-- Every token is readable, and no number or name is followed by another. -/
def Separated : List Piece → Prop
  | [] => True
  | p :: ps =>
    p.token.IsReadable ∧ (p.token.isWord = true → startsWord ps = false) ∧ Separated ps

/-- The characters of the pieces. -/
def characters (ps : List Piece) : List Char := ps.flatMap (·.text.toList)

theorem endsWord_blank (cs : List Char) : EndsWord (' ' :: cs) := by
  rintro c ⟨⟩
  decide

/-- A sign is one character. -/
theorem exists_sign {token : Token} (h : token.isWord = false) :
    ∃ c, token.text.toList = [c] ∧ isIdentifierRest c = false ∧ c ≠ '.' := by
  cases token <;> first | exact ⟨_, rfl, by decide, by decide⟩ | cases h

/-- Pieces that start with a sign go on no number or name. -/
theorem endsWord_characters {ps : List Piece} (h : startsWord ps = false) :
    EndsWord (characters ps) := by
  rcases ps with _ | ⟨⟨token, spacing⟩, ps⟩
  · rintro c ⟨⟩
  obtain ⟨sign, htext, hsign⟩ := exists_sign h
  show EndsWord ((Piece.text ⟨token, spacing⟩).toList ++ characters ps)
  cases spacing with
  | around => simpa [Piece.text, String.toList_append] using endsWord_blank _
  | _ =>
    simp only [Piece.text, String.toList_append, htext]
    rintro c ⟨⟩
    exact hsign

/-- Separated pieces are read back. -/
theorem scansAs_of_separated : ∀ {ps : List Piece}, Separated ps →
    ScansAs (characters ps) (ps.map Piece.token)
  | [], _ => .nil
  | ⟨token, spacing⟩ :: ps, ⟨hreadable, hword, hseparated⟩ => by
    -- What follows a token is a blank of its own or the next piece. Blanks before it are skipped.
    have hrest := scansAs_of_separated hseparated
    have hends : token.isWord = true → EndsWord (characters ps) := fun h ↦
      endsWord_characters (hword h)
    have hblank : token.isWord = true → EndsWord (' ' :: characters ps) := fun _ ↦
      endsWord_blank _
    show ScansAs ((Piece.text ⟨token, spacing⟩).toList ++ characters ps) (token :: _)
    cases spacing with
    | tight => exact .token hreadable hends hrest
    | after =>
      have htoken := ScansAs.token hreadable hblank hrest.blank
      simpa [Piece.text, String.toList_append] using htoken
    | around =>
      have htoken := (ScansAs.token hreadable hblank hrest.blank).blank
      simpa [Piece.text, String.toList_append] using htoken

/-- The text of separated pieces is read back. -/
theorem scan_join_of_separated {ps : List Piece} (h : Separated ps) :
    ∃ lexemes, scan (String.join (ps.map Piece.text)) = .ok lexemes ∧
      tokens lexemes = ps.map Piece.token := by
  have hcharacters : (String.join (ps.map Piece.text)).toList = characters ps := by
    rw [String.toList_join, characters, List.flatMap_map]
  rw [scan, hcharacters]
  exact scansAs_of_separated h 0

end Tradeoff
