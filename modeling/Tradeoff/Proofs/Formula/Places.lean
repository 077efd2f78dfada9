import Tradeoff.Proofs.Formula.Blame
import Tradeoff.Proofs.Formula.Lexemes

/-!
# Where errors are reported

The place of an error of a formula is a boundary between characters, before the end of the text
unless an operand is missing there or would nest too deeply, and it is the place of the cause
(`parse_eq_error`): of the first character that starts no token, or of what is to blame among the
tokens.

That the tokens before a misplaced one begin a form is a statement about texts as well. The text
before the place is not changed by what comes after it as long as a blank stands between them
(`Scanned.replace`), so that the tokens that complete the form can be written there.
-/

namespace Tradeoff

/-! ### Other text after a place -/

/-- Characters without a blank that begin a text do so up to its first blank. -/
theorem prefix_of_prefix_blank {cs before after : List Char} (h : cs <+: before ++ ' ' :: after)
    (hblank : ∀ c ∈ cs, isBlank c = false) : cs <+: before := by
  refine List.prefix_of_prefix_length_le h (List.prefix_append before _) ?_
  by_contra hlength
  have hbefore : before ++ [' '] <+: cs := by
    refine List.prefix_of_prefix_length_le ⟨after, by simp⟩ h ?_
    rw [List.length_append, List.length_singleton]
    omega
  have hmem : ' ' ∈ cs := hbefore.subset (by simp)
  cases hblank ' ' hmem

/-- The longest beginning without blanks stays the longest if the text after it changes behind a
blank. -/
theorem IsLongest.replace {p : List Char → Prop} {chars middle rest : List Char}
    (hp : ∀ cs, p cs → ∀ c ∈ cs, isBlank c = false)
    (h : IsLongest p chars (chars ++ (middle ++ rest))) (more : List Char) :
    IsLongest p chars (chars ++ (middle ++ ' ' :: more)) where
  holds := h.holds
  begins := List.prefix_append chars _
  length_le other hother hpother := by
    rw [← List.append_assoc] at hother
    have hbefore := prefix_of_prefix_blank hother (hp other hpother)
    exact h.length_le other (hbefore.trans ⟨rest, by simp⟩) hpother

theorem isBlank_eq_false_of_isName {cs : List Char} (h : IsName (String.ofList cs)) :
    ∀ c ∈ cs, isBlank c = false := by
  obtain ⟨c, tail, htext, hstart, hrest⟩ := h
  rw [String.toList_ofList] at htext
  subst htext
  rintro d (_ | ⟨_, hd⟩)
  · exact isBlank_eq_false (isIdentifierRest_of_isIdentifierStart hstart)
  · exact isBlank_eq_false (hrest d hd)

theorem isBlank_eq_false_of_isDigit {c : Char} (h : c.isDigit) : isBlank c = false :=
  isBlank_eq_false (by simp [isIdentifierRest, Char.isAlphanum, h])

theorem isBlank_eq_false_of_hasShape {cs : List Char} (h : Numeral.HasShape cs) :
    ∀ c ∈ cs, isBlank c = false := by
  obtain ⟨n, hn, rfl⟩ := h
  intro c hc
  rcases List.mem_append.mp hc with hc | hexponent
  · rcases List.mem_append.mp hc with hwhole | hfraction
    · exact isBlank_eq_false_of_isDigit (hn.whole c hwhole)
    · obtain hnil | ⟨places, heq, hplaces⟩ := hn.fraction
      · simp [hnil] at hfraction
      · rw [heq] at hfraction
        obtain _ | ⟨_, hc⟩ := hfraction
        · rfl
        · exact isBlank_eq_false_of_isDigit (hplaces c hc)
  · obtain hnil | ⟨mark, sign, digits, heq, hmark, hsign, -, hdigits⟩ := hn.exponent
    · simp [hnil] at hexponent
    rw [heq] at hexponent
    rcases List.mem_cons.mp hexponent with rfl | hc
    · obtain rfl | rfl : c = 'e' ∨ c = 'E' := by simpa [Numeral.isMark] using hmark
      all_goals rfl
    · rcases List.mem_append.mp hc with hc | hc
      · rcases hsign with rfl | rfl | rfl
        · cases hc
        all_goals
          obtain rfl := List.mem_singleton.mp hc
          rfl
      · exact isBlank_eq_false_of_isDigit (hdigits c hc)

/-- A lexeme stays one if the text after it changes behind a blank. -/
theorem IsLexeme.replace {token : Token} {chars middle rest : List Char}
    (h : IsLexeme token chars (middle ++ rest)) (more : List Char) :
    IsLexeme token chars (middle ++ ' ' :: more) := by
  cases h with
  | sign hword => exact .sign hword
  | identifier hlongest =>
    exact .identifier (hlongest.replace (fun _ ↦ isBlank_eq_false_of_isName) more)
  | number hlongest hvalue =>
    exact .number (hlongest.replace (fun _ ↦ isBlank_eq_false_of_hasShape) more) hvalue

namespace Scanned

variable {cs rest : List Char} {offset stop : Nat} {lexemes : List Lexeme}

/-- What was passed is passed in the same way if the text after it changes behind a blank. -/
theorem replace (h : Scanned cs offset lexemes rest stop) (more : List Char) :
    ∃ passed, cs = passed ++ rest ∧ stop = offset + byteLength passed ∧
      Scanned (passed ++ ' ' :: more) offset lexemes (' ' :: more) stop := by
  induction h with
  | done => exact ⟨[], rfl, rfl, .done⟩
  | @blank c _ _ _ _ _ hblank _ ih =>
    obtain ⟨passed, rfl, rfl, hscanned⟩ := ih
    exact ⟨c :: passed, rfl, by rw [byteLength_cons, Nat.add_assoc], .blank hblank hscanned⟩
  | @lexeme token chars _ _ _ _ _ hlexeme _ ih =>
    obtain ⟨passed, rfl, rfl, hscanned⟩ := ih
    refine ⟨chars ++ passed, by rw [List.append_assoc],
      by rw [byteLength_append, Nat.add_assoc], ?_⟩
    rw [List.append_assoc]
    exact .lexeme (hlexeme.replace more) hscanned

/-- The lexemes before one are those that are passed up to it. -/
theorem before {before after : List Lexeme} {lexeme : Lexeme}
    (h : Scanned cs offset lexemes rest stop) (hlexemes : lexemes = before ++ lexeme :: after) :
    ∃ rest', Scanned cs offset before rest' lexeme.offset := by
  induction h generalizing before with
  | done => simp at hlexemes
  | blank hblank _ ih =>
    obtain ⟨rest', hscanned⟩ := ih hlexemes
    exact ⟨rest', .blank hblank hscanned⟩
  | lexeme hlexeme _ ih =>
    rcases before with _ | ⟨first, before⟩
    · obtain ⟨rfl, -⟩ := List.cons.inj hlexemes
      exact ⟨_, .done⟩
    · obtain ⟨rfl, htail⟩ := List.cons.inj hlexemes
      obtain ⟨rest', hscanned⟩ := ih htail
      exact ⟨rest', .lexeme hlexeme hscanned⟩

end Scanned

/-- The text of some tokens, with a blank before each. -/
def spaced (ts : List Token) : List Char := ts.flatMap fun token ↦ ' ' :: token.text.toList

/-- Readable tokens are read back with blanks before them. -/
theorem scansAs_spaced {ts : List Token} (h : ∀ token ∈ ts, token.IsReadable) :
    ScansAs (spaced ts) ts := by
  induction ts with
  | nil => exact .nil
  | cons token ts ih =>
    obtain ⟨htoken, hts⟩ := List.forall_mem_cons.mp h
    have hends : EndsWord (spaced ts) := by
      cases ts with
      | nil => rintro c ⟨⟩
      | cons next ts => exact endsWord_blank _
    exact (ScansAs.token htoken (fun _ ↦ hends) (ih hts)).blank

/-- More text after the beginning makes a text whose tokens have the form of a formula. -/
def BeginsForm (before : String) : Prop :=
  ∃ more lexemes, scan (before ++ more) = .ok lexemes ∧ Forms .sum (tokens lexemes)

theorem beginsForm_of_completable {formula : String} {before : List Lexeme} {rest : List Char}
    {stop : Nat} (hscanned : Scanned formula.toList 0 before rest stop)
    (h : Completable (tokens before)) :
    ∃ passed after, formula = passed ++ after ∧ passed.utf8ByteSize = stop ∧ BeginsForm passed := by
  obtain ⟨more, hmore, hforms⟩ := h
  obtain ⟨passed, htext, rfl, hpassed⟩ := hscanned.replace (spaced more)
  obtain ⟨lexemes, hscan, htokens⟩ := (scansAs_spaced hmore).blank (0 + byteLength passed)
  refine ⟨String.ofList passed, String.ofList rest, ?_, ?_,
    String.ofList (' ' :: spaced more), before ++ lexemes, ?_, ?_⟩
  · rw [← String.ofList_append, ← htext, String.ofList_toList]
  · rw [← String.size_toByteArray, String.toByteArray_ofList, size_utf8Encode, Nat.zero_add]
  · rw [← String.ofList_append, scan, String.toList_ofList, hpassed.scanFrom_eq, hscan]
    rfl
  · rw [tokens_append, htokens]
    exact hforms

/-! ### The place of an error -/

/-- The place of an error among lexemes is that of one of them or the end, where an operand is
missing or would nest too deeply. -/
theorem Blames.offset_cases {limit stop : Nat} {lexemes : List Lexeme} {e : ParseError}
    (h : Blames limit stop lexemes e) :
    (∃ lexeme ∈ lexemes, lexeme.offset = e.offset) ∨
      e.offset = stop ∧ (e.cause = .missingOperand ∨ e.cause = .tooDeep limit) := by
  cases h with
  | unclosed hsplit | unopened hsplit | malformed hsplit | misplaced _ hsplit =>
    exact .inl ⟨_, hsplit ▸ List.mem_append_right _ List.mem_cons_self, rfl⟩
  | @tooDeep before after hsplit =>
    cases after with
    | nil => exact .inr ⟨rfl, .inr rfl⟩
    | cons lexeme after =>
      exact .inl ⟨lexeme, hsplit ▸ List.mem_append_right _ List.mem_cons_self, rfl⟩
  | ended => exact .inr ⟨rfl, .inl rfl⟩

/-- The place before some characters of the text is a boundary before its end. -/
theorem isValid_and_lt {text : String} {before rest : List Char} (h : text.toList = before ++ rest)
    (hrest : rest ≠ []) :
    (⟨byteLength before⟩ : String.Pos.Raw).IsValid text ∧
      byteLength before < text.utf8ByteSize := by
  have hpos := byteLength_pos hrest
  refine ⟨isValid_of_toList_eq h, ?_⟩
  rw [utf8ByteSize_eq, h, byteLength_append]
  omega

/-- The place of a lexeme is a boundary before the end of the text. -/
theorem isValid_and_lt_of_mem {text : String} {lexemes : List Lexeme} {lexeme : Lexeme}
    (hscan : scan text = .ok lexemes) (hmem : lexeme ∈ lexemes) :
    (⟨lexeme.offset⟩ : String.Pos.Raw).IsValid text ∧ lexeme.offset < text.utf8ByteSize := by
  obtain ⟨before, chars, after, htext, hoffset, hlexeme⟩ :=
    (scan_eq_ok_iff.mp hscan).exists_of_mem hmem
  obtain ⟨c, cs, rfl, -⟩ := hlexeme.exists_read
  rw [hoffset, Nat.zero_add]
  exact isValid_and_lt (htext.trans (List.append_assoc _ _ _)) (List.cons_ne_nil c _)

/-- An error is found in the characters or among the lexemes. -/
theorem exists_of_parse_eq_error {formula : String} {e : ParseError}
    (h : parse formula = .error e) :
    scan formula = .error e ∨
      ∃ lexemes, scan formula = .ok lexemes ∧
        Blames nestingLimit formula.utf8ByteSize lexemes e := by
  cases hscan : scan formula with
  | error e' =>
    rw [parse, parseWithin, hscan] at h
    exact .inl (congrArg Except.error (Except.error.inj h))
  | ok lexemes =>
    rw [parse_eq_parseLexemes hscan, ← utf8ByteSize_eq] at h
    exact .inr ⟨lexemes, rfl, blames_of_parseLexemes h⟩

/-- Tokens before a misplaced one begin a form, and so does the text before its place. -/
theorem Blames.beginsForm {limit : Nat} {formula : String} {lexemes : List Lexeme} {e : ParseError}
    (h : Blames limit formula.utf8ByteSize lexemes e) (hscan : scan formula = .ok lexemes)
    (hcause : e.cause.IsMisplaced) (hlt : e.offset < formula.utf8ByteSize) :
    ∃ before after, formula = before ++ after ∧ before.utf8ByteSize = e.offset ∧
      BeginsForm before := by
  have hscanned := scan_eq_ok_iff.mp hscan
  cases h with
  | unclosed | unopened | malformed | tooDeep => exact hcause.elim
  | ended => exact absurd hlt (Nat.lt_irrefl _)
  | misplaced _ hsplit hcompletable =>
    obtain ⟨rest, hbefore⟩ := hscanned.before hsplit
    exact beginsForm_of_completable hbefore hcompletable

/-- **Errors are reported where their causes are.** The place of an error is a boundary of the text,
and its end only if an operand is missing there or would nest too deeply. A character or a number
that cannot be read is the first; anything else is found among the lexemes of the whole text, and
the text before a misplaced token begins one that has the form of a formula. -/
theorem parse_eq_error {formula : String} {e : ParseError} (h : parse formula = .error e) :
    (⟨e.offset⟩ : String.Pos.Raw).IsValid formula ∧ e.offset ≤ formula.utf8ByteSize ∧
    (e.offset = formula.utf8ByteSize →
      e.cause = .missingOperand ∨ e.cause = .tooDeep nestingLimit) ∧
    ((∃ lexemes rest, Scanned formula.toList 0 lexemes rest e.offset ∧ Unreadable rest ∧
        Offends rest e.cause) ∨
      ∃ lexemes, scan formula = .ok lexemes ∧
        Blames nestingLimit formula.utf8ByteSize lexemes e) ∧
    (e.cause.IsMisplaced → e.offset < formula.utf8ByteSize →
      ∃ before after, formula = before ++ after ∧ before.utf8ByteSize = e.offset ∧
        BeginsForm before) := by
  rcases exists_of_parse_eq_error h with hscan | ⟨lexemes, hscan, hblames⟩
  · obtain ⟨lexemes, rest, hscanned, hrest, hoffends⟩ := scan_eq_error_iff.mp hscan
    obtain ⟨passed, htext, hstop⟩ := hscanned.exists_passed
    rw [Nat.zero_add] at hstop
    have hne : rest ≠ [] := by
      obtain ⟨c, cs, rfl, -⟩ := hrest
      exact List.cons_ne_nil c cs
    obtain ⟨hvalid, hlt⟩ := isValid_and_lt htext hne
    rw [← hstop] at hvalid hlt
    refine ⟨hvalid, hlt.le, fun hend ↦ absurd hend hlt.ne,
      .inl ⟨lexemes, rest, hscanned, hrest, hoffends⟩, fun hcause ↦ ?_⟩
    generalize e.cause = cause at hoffends hcause
    cases hoffends <;> exact hcause.elim
  · have hbegins := hblames.beginsForm hscan
    rcases hblames.offset_cases with ⟨lexeme, hmem, hoffset⟩ | ⟨hend, hcause⟩
    · obtain ⟨hvalid, hlt⟩ := isValid_and_lt_of_mem hscan hmem
      rw [hoffset] at hvalid hlt
      exact ⟨hvalid, hlt.le, fun hend ↦ absurd hend hlt.ne, .inr ⟨lexemes, hscan, hblames⟩, hbegins⟩
    · refine ⟨?_, hend.le, fun _ ↦ hcause, .inr ⟨lexemes, hscan, hblames⟩, hbegins⟩
      rw [hend]
      exact String.Pos.Raw.isValid_rawEndPos

/-- In a call a name follows an operand, where a comma or a closing parenthesis has to stand. -/
theorem parse_eq_error_call :
    parse "f(x y)" = .error ⟨.expected .commaOrClosing, 4⟩ ∧
    ∃ before after, "f(x y)" = before ++ after ∧ before.utf8ByteSize = 4 ∧ BeginsForm before := by
  have hparse : parse "f(x y)" = .error ⟨.expected .commaOrClosing, 4⟩ := by cbv
  exact ⟨hparse, (parse_eq_error hparse).2.2.2.2 trivial (by decide)⟩

end Tradeoff
