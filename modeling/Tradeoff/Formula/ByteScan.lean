import Tradeoff.Formula.Scan

/-!
# Tokens by byte indices

The bytes of a formula can be split into tokens without decoding its characters first.
`scanBytes` goes through them by their indices and looks at each as if it were a character of its
own: what a token may consist of is ASCII, and such a character is one byte. Only the texts of
numbers and names and a character that starts no token are taken from the formula as slices.

A slice fails unless it begins and ends between characters (`slice?`), and so do the bytes from an
index beyond the end (`bytesFrom?`). Where one of them fails there is no result at all, not even an
error.
-/

namespace Tradeoff

/-! ### Bytes and slices -/

/-- The bytes of a text. -/
def textBytes (text : String) : List UInt8 := text.toByteArray.data.toList

/-- The character with the number of the byte. -/
def byteChar (b : UInt8) : Char := Char.ofNat b.toNat

/-- The byte at an index as a character; none at the end of the text and beyond it. -/
def charAt? (text : String) (index : Nat) : Option Char := (textBytes text)[index]?.map byteChar

/-- The bytes from an index on. Beyond the end of the text this fails. -/
def bytesFrom? (text : String) (index : Nat) : Option (List UInt8) :=
  if index ≤ (textBytes text).length then some ((textBytes text).drop index) else none

/-- The part of a text between two indices. This fails if they are out of order or one of them is
not between characters. -/
def slice? (text : String) (start stop : Nat) : Option String :=
  if start ≤ stop && String.Pos.Raw.isValid text ⟨start⟩ && String.Pos.Raw.isValid text ⟨stop⟩ then
    String.fromUTF8? (text.toByteArray.extract start stop)
  else none

/-! ### Ends of tokens -/

/-- Where the longest run of characters with the property ends that starts at an index. -/
def runEnd? (p : Char → Bool) (text : String) (index : Nat) : Option Nat :=
  match bytesFrom? text index with
  | none => none
  | some bytes => some (index + (bytes.takeWhile fun b ↦ p (byteChar b)).length)

/-- Where the fraction ends that may start at an index. -/
def fractionEnd? (text : String) (index : Nat) : Option Nat :=
  if charAt? text index = some '.' then runEnd? Char.isDigit text (index + 1) else some index

/-- Where the digits of an exponent have to start whose mark is at an index. -/
def exponentDigits (text : String) (index : Nat) : Nat :=
  if (charAt? text (index + 1)).any fun c ↦ c = '+' || c = '-' then index + 2 else index + 1

/-- Where the exponent ends that may start at an index. Without a digit there is none. -/
def exponentEnd? (text : String) (index : Nat) : Option Nat :=
  if (charAt? text index).any Numeral.isMark &&
      (charAt? text (exponentDigits text index)).any Char.isDigit then
    runEnd? Char.isDigit text (exponentDigits text index)
  else some index

/-- Where the number ends that starts at an index. -/
def numberEnd? (text : String) (index : Nat) : Option Nat :=
  match runEnd? Char.isDigit text index with
  | none => none
  | some whole =>
    match fractionEnd? text whole with
    | none => none
    | some fraction => exponentEnd? text fraction

/-- Up to the end there is a byte at every index. -/
theorem charAt?_of_lt {text : String} {index : Nat} (h : index < (textBytes text).length) :
    charAt? text index = some (byteChar (textBytes text)[index]) := by
  rw [charAt?, List.getElem?_eq_getElem h, Option.map_some]

/-! ### Progress -/

section Progress

variable {text : String} {index stop : Nat} {c : Char}

/-- A run does not end before it starts. -/
theorem le_of_runEnd? {p : Char → Bool} (h : runEnd? p text index = some stop) : index ≤ stop := by
  unfold runEnd? at h
  split at h
  · cases h
  · cases h
    exact Nat.le_add_right _ _

/-- A run ends after its first character, if this belongs to it. -/
theorem lt_of_runEnd? {p : Char → Bool} (hc : charAt? text index = some c) (hp : p c)
    (h : runEnd? p text index = some stop) : index < stop := by
  obtain ⟨b, hb, rfl⟩ := Option.map_eq_some_iff.mp hc
  obtain ⟨hlt, hget⟩ := List.getElem?_eq_some_iff.mp hb
  have hbytes : bytesFrom? text index = some (b :: (textBytes text).drop (index + 1)) := by
    rw [bytesFrom?, if_pos (Nat.le_of_lt hlt), List.drop_eq_getElem_cons hlt, hget]
  rw [runEnd?, hbytes] at h
  dsimp only at h
  rw [List.takeWhile_cons, if_pos hp] at h
  cases h
  exact Nat.lt_add_of_pos_right (Nat.succ_pos _)

/-- A fraction does not end before it starts. -/
theorem le_of_fractionEnd? (h : fractionEnd? text index = some stop) : index ≤ stop := by
  unfold fractionEnd? at h
  split at h
  · exact Nat.le_of_succ_le (le_of_runEnd? h)
  · cases h
    exact Nat.le_refl _

/-- A fraction that begins with a decimal point takes at least the point. -/
theorem lt_of_fractionEnd? (hc : charAt? text index = some '.')
    (h : fractionEnd? text index = some stop) : index < stop := by
  rw [fractionEnd?, if_pos hc] at h
  exact le_of_runEnd? h

theorem lt_exponentDigits (text : String) (index : Nat) : index < exponentDigits text index := by
  unfold exponentDigits
  split <;> omega

/-- An exponent does not end before it starts. -/
theorem le_of_exponentEnd? (h : exponentEnd? text index = some stop) : index ≤ stop := by
  unfold exponentEnd? at h
  split at h
  · exact Nat.le_trans (Nat.le_of_lt (lt_exponentDigits text index)) (le_of_runEnd? h)
  · cases h
    exact Nat.le_refl _

/-- A number that starts with a digit or a point ends after it. -/
theorem lt_of_numberEnd? (hc : charAt? text index = some c) (hnumber : c.isDigit || c = '.')
    (h : numberEnd? text index = some stop) : index < stop := by
  unfold numberEnd? at h
  split at h
  · cases h
  next whole hwhole =>
    split at h
    · cases h
    next fraction hfraction =>
      refine Nat.lt_of_lt_of_le ?_ (le_of_exponentEnd? h)
      rcases Nat.eq_or_lt_of_le (le_of_runEnd? hwhole) with rfl | hlt
      · -- The run of digits is empty, so that the number starts with a point.
        obtain hdigit | hpoint : c.isDigit = true ∨ c = '.' := by
          rwa [Bool.or_eq_true, decide_eq_true_iff] at hnumber
        · exact absurd (lt_of_runEnd? hc hdigit hwhole) (Nat.lt_irrefl _)
        · exact lt_of_fractionEnd? (hpoint ▸ hc) hfraction
      · exact Nat.lt_of_lt_of_le hlt (le_of_fractionEnd? hfraction)

end Progress

/-! ### The loop -/

/-- The number that starts at an index, and where it ends. -/
def numberAt? (text : String) (index : Nat) : Option (Except ParseError (Option Token × Nat)) :=
  match numberEnd? text index with
  | none => none
  | some stop =>
    match slice? text index stop with
    | none => none
    | some numeral =>
      if numeral = "." then some (.error ⟨.unexpectedCharacter '.', index⟩)
      else
        match readNumber? numeral.toList with
        | none => some (.error ⟨.invalidNumber numeral, index⟩)
        | some value => some (.ok (some (.number value), stop))

/-- The identifier that starts at an index, and where it ends. -/
def identifierAt? (text : String) (index : Nat) :
    Option (Except ParseError (Option Token × Nat)) :=
  match runEnd? isIdentifierRest text index with
  | none => none
  | some stop =>
    match slice? text index stop with
    | none => none
    | some name => some (.ok (some (.identifier name), stop))

/-- The error at an index where no token starts. It names the whole character there, not only its
first byte `c`. -/
def unexpectedAt? (text : String) (index : Nat) (c : Char) :
    Option (Except ParseError (Option Token × Nat)) :=
  match slice? text index (textBytes text).length with
  | none => none
  | some rest => some (.error ⟨.unexpectedCharacter (rest.toList.head?.getD c), index⟩)

/-- What is read at an index where the byte is `c`: a token, or none at a blank, and the index to
go on from. -/
def readAt? (text : String) (index : Nat) (c : Char) :
    Option (Except ParseError (Option Token × Nat)) :=
  if isBlank c then some (.ok (none, index + 1))
  else
    match Token.ofChar? c with
    | some token => some (.ok (some token, index + 1))
    | none =>
      if c.isDigit || c = '.' then numberAt? text index
      else if isIdentifierStart c then identifierAt? text index
      else unexpectedAt? text index c

section Reading

variable {text : String} {index next : Nat} {c : Char} {token? : Option Token}

/-- A number that is read takes at least its first character. -/
theorem lt_of_numberAt? (hc : charAt? text index = some c) (hnumber : c.isDigit || c = '.')
    (h : numberAt? text index = some (.ok (token?, next))) : index < next := by
  unfold numberAt? at h
  split at h
  · cases h
  next stop hstop =>
    have hlt := lt_of_numberEnd? hc hnumber hstop
    split at h
    · cases h
    split at h
    · cases h
    split at h
    · cases h
    · cases h
      exact hlt

/-- So does an identifier that is read. -/
theorem lt_of_identifierAt? (hc : charAt? text index = some c) (hstart : isIdentifierStart c)
    (h : identifierAt? text index = some (.ok (token?, next))) : index < next := by
  unfold identifierAt? at h
  split at h
  · cases h
  next stop hstop =>
    have hlt := lt_of_runEnd? hc (isIdentifierRest_of_isIdentifierStart hstart) hstop
    split at h
    · cases h
    · cases h
      exact hlt

/-- **Reading goes on.** What is read takes at least one byte. -/
theorem lt_of_readAt? (hc : charAt? text index = some c)
    (h : readAt? text index c = some (.ok (token?, next))) : index < next := by
  unfold readAt? at h
  split at h
  · cases h
    exact Nat.lt_succ_self index
  split at h
  · cases h
    exact Nat.lt_succ_self index
  split at h
  · next hnumber => exact lt_of_numberAt? hc hnumber h
  split at h
  · next hstart => exact lt_of_identifierAt? hc hstart h
  · unfold unexpectedAt? at h
    split at h <;> cases h

end Reading

/-- The tokens that were found before an index, and those from there on. -/
def scanBytesFrom (text : String) (found : List Lexeme) (index : Nat) :
    Option (Except ParseError (List Lexeme)) :=
  if hlt : index < (textBytes text).length then
    match hread : readAt? text index (byteChar (textBytes text)[index]) with
    | none => none
    | some (.error e) => some (.error e)
    | some (.ok (none, next)) => scanBytesFrom text found next
    | some (.ok (some token, next)) => scanBytesFrom text (found ++ [⟨token, index⟩]) next
  else some (.ok found)
termination_by (textBytes text).length - index
decreasing_by
  all_goals
    have hnext := lt_of_readAt? (charAt?_of_lt hlt) hread
    omega

/-- The lexemes of a formula, by the indices of its bytes. -/
def scanBytes (formula : String) : Option (Except ParseError (List Lexeme)) :=
  scanBytesFrom formula [] 0

end Tradeoff
