import Tradeoff.Proofs.Formula.Enclosure
import Tradeoff.Proofs.Formula.RoundTrip

/-!
# What the limit on nesting counts

A formula nests too deeply only where more enclosures are open than the limit leaves room for, and a
formula that spells an expression nests too deeply exactly then (`not_tooDeep_of_enclosesAtMost`).
Right operands of every connective count, and not only exponents: 128 groups nest too deeply if each
is a term of a sum (`nestedSums_tooDeep`). Where the operands of sums and products are left out of
the count, a third of the limit is safe, because at most two of these stand between two other
enclosures (`Nested.length_le`).

That a reader gives up for its depth only where so many enclosures are open is shown as it reads, on
any tokens (`ReachesDepth`): what it has read so far is a derivation, and that goes through the
places of its tokens.
-/

namespace Tradeoff

/-- The error says that operands nest too deeply. -/
def ParseError.IsTooDeep (e : ParseError) : Prop := ∃ limit, e.cause = .tooDeep limit

/-! ### Reading stops for its depth only where many enclosures are open -/

/-- With so many levels left, the reader says that operands nest too deeply only if as many more
enclosures are open somewhere. -/
def ReachesDepth (read : Reader) (levels : Nat) : Prop :=
  ∀ {layer : Layer} {lexemes : List Lexeme} {s : List Enclosure} {e : ParseError},
    layer ≤ .signed → inside s ≤ layer → outcome (read layer lexemes) = .error e → e.IsTooDeep →
    s.length + levels ≤ Place.deepest ⟨s, false⟩ (tokens lexemes)

/-- What is open anywhere after a first part is open somewhere. -/
theorem Traverses.deepest_le {s : List Enclosure} {n : Nat} {layer : Layer}
    {input middle : List Token} {token : Token} {p : Place}
    (h : Traverses s n layer input (token :: middle))
    (hnext : ∀ inner, Pending layer inner → Place.next ⟨inner ++ s, true⟩ token = p) :
    p.deepest middle ≤ Place.deepest ⟨s, false⟩ input := by
  obtain ⟨read, inner, rfl, hinner, hrun, -⟩ := h
  rw [Place.deepest_append, hrun, Place.deepest, hnext inner hinner]
  exact (Nat.le_max_right _ _).trans (Nat.le_max_right _ _)

section Reaches

variable {read : Reader} {depth levels : Nat} {s : List Enclosure} {e : ParseError}
  (hread : FindsDerivations read depth) (hreaches : ReachesDepth read levels)

include hread hreaches

/-- If arguments nest too deeply, the parentheses of the call are around it. -/
theorem le_deepest_of_arguments {opened : Nat} {lexemes : List Lexeme}
    (h : outcome (arguments read opened lexemes) = .error e) (he : e.IsTooDeep) :
    s.length + 1 + levels ≤ Place.deepest ⟨.parentheses :: s, false⟩ (tokens lexemes) := by
  induction hlength : lexemes.length using Nat.strongRecOn generalizing lexemes with
  | ind length ih =>
    rw [outcome_arguments] at h
    rcases thenRead_eq_error h with harg | ⟨arg, after, harg, hafter⟩
    · exact hreaches (by decide) (inside_cons_le .parentheses s) harg he
    obtain ⟨⟨n, -, hderives⟩, -⟩ := hread (by decide) harg
    obtain ⟨limit, hcause⟩ := he
    cases after with
    | nil =>
      cases hafter
      cases hcause
    | cons lexeme after =>
      simp only [closeOrMore] at hafter
      split at hafter
      · cases hafter
      split at hafter
      · next hcomma =>
        -- The arguments after a comma start in the same parentheses.
        rcases thenRead_eq_error hafter with hmore | ⟨args, rest, -, hresult⟩
        · have hshorter := length_lt_of_outcome harg
          rw [List.length_cons] at hshorter
          rw [tokens_cons, hcomma] at hderives
          exact (ih after.length (by omega) hmore rfl).trans
            ((hderives.traverses (inside_cons_le .parentheses s)).deepest_le
              fun inner hinner ↦ Place.next_comma hinner true)
        · cases hresult
      · cases hafter
        cases hcause

/-- If a call nests too deeply, one of its arguments does. -/
theorem le_deepest_of_call {name : String} {named opened : Nat} {lexemes : List Lexeme}
    (h : outcome (call read name named opened lexemes) = .error e) (he : e.IsTooDeep) :
    s.length + 1 + levels ≤ Place.deepest ⟨.parentheses :: s, false⟩ (tokens lexemes) := by
  rw [outcome_call] at h
  rcases thenRead_eq_error h with hargs | ⟨args, rest, -, hcall⟩
  · by_cases hclosing : (tokens lexemes).head? = some .closing
    · obtain ⟨offset, tail, rfl, -⟩ :=
        exists_of_tokens_eq_cons (List.head?_eq_some_iff.mp hclosing).choose_spec
      cases hargs
    · rw [argumentList_of_head?_ne opened hclosing] at hargs
      exact le_deepest_of_arguments hread hreaches hargs he
  · -- A call as a whole is malformed or not, whatever its depth.
    obtain ⟨limit, hcause⟩ := he
    unfold applyCall at hcall
    split at hcall
    · cases hcall
      cases hcause
    · cases hcall

omit hread in
/-- If a group nests too deeply, its parentheses are around it. -/
theorem le_deepest_of_group {opened : Nat} {lexemes : List Lexeme}
    (h : outcome (group read opened lexemes) = .error e) (he : e.IsTooDeep) :
    s.length + 1 + levels ≤ Place.deepest ⟨.parentheses :: s, false⟩ (tokens lexemes) := by
  rw [outcome_group] at h
  rcases thenRead_eq_error h with hcontent | ⟨content, after, -, hclose⟩
  · exact hreaches (by decide) (inside_cons_le .parentheses s) hcontent he
  · obtain ⟨limit, hcause⟩ := he
    cases after with
    | nil =>
      cases hclose
      cases hcause
    | cons lexeme after =>
      simp only [close] at hclose
      split at hclose
      · cases hclose
      · cases hclose
        cases hcause

/-- If an operand nests too deeply, an enclosure that it opens is around it, or the depth is reached
already. -/
theorem le_deepest_of_operand {stop : Nat} {lexemes : List Lexeme}
    (h : outcome (operand stop read lexemes) = .error e) (he : e.IsTooDeep) :
    s.length + 1 + levels ≤ Place.deepest ⟨s, false⟩ (tokens lexemes) := by
  -- No operand is no question of depth.
  have missing {offset : Nat} (hmissing : e = ⟨.missingOperand, offset⟩) : False := by
    obtain ⟨limit, hcause⟩ := he
    subst hmissing
    cases hcause
  rcases lexemes with _ | ⟨⟨token, offset⟩, tail⟩
  · exact (missing (Except.error.inj h).symm).elim
  cases token with
  | number value => cases h
  | identifier name =>
    by_cases hopening : (tokens tail).head? = some .opening
    · obtain ⟨opened, tail, rfl, -⟩ :=
        exists_of_tokens_eq_cons (List.head?_eq_some_iff.mp hopening).choose_spec
      rw [outcome_operand_call] at h
      exact (le_deepest_of_call hread hreaches h he).trans
        ((Nat.le_max_right _ _).trans (Nat.le_max_right _ _))
    · rw [outcome_operand_name hopening] at h
      cases h
  | minus =>
    rw [outcome_operand_minus] at h
    rcases thenRead_eq_error h with hoperand | ⟨a, rest, -, hresult⟩
    · exact (hreaches (Layer.le_refl .signed) (inside_cons_le .sign s) hoperand he).trans
        (Nat.le_max_right _ _)
    · cases hresult
  | opening =>
    rw [outcome_operand_opening] at h
    exact (le_deepest_of_group hreaches h he).trans (Nat.le_max_right _ _)
  | _ => exact (missing (Except.error.inj h).symm).elim

/-- The chain keeps its invariant: the tokens before it lead to the end of an expression that what
follows may follow. -/
theorem le_deepest_of_chain {layer layer' : Layer} {input : List Token} {lexemes : List Lexeme}
    {lhs : Expr} {n : Nat} (hs : inside s ≤ layer)
    (hlhs : Traverses s n layer' input (tokens lexemes)) (hle : layer ≤ layer')
    (hadmits : Admits layer' (tokens lexemes))
    (h : outcome (chain read layer lhs lexemes) = .error e) (he : e.IsTooDeep) :
    s.length + 1 + levels ≤ Place.deepest ⟨s, false⟩ input := by
  induction hlength : lexemes.length using Nat.strongRecOn
    generalizing lexemes lhs layer' n with
  | ind length ih =>
    rcases lexemes with _ | ⟨lexeme, tail⟩
    · rw [outcome_chain_nil] at h
      cases h
    by_cases htake : ∃ c, Connective.ofToken? lexeme.token = some c ∧ layer ≤ c.layer
    · obtain ⟨c, hc, hlayer⟩ := htake
      have hsigned : c.right ≤ .signed := by cases c <;> decide
      have hleft : Traverses s n c.left input (c.token :: tokens tail) := by
        rw [← Connective.ofToken?_eq_some_iff.mp hc]
        exact hlhs.loosen (hadmits c hc)
      rw [outcome_chain_take hc hlayer] at h
      rcases thenRead_eq_error h with hright | ⟨rhs, rest, hright, hgoes⟩
      · exact (hreaches hsigned (inside_cons_le (.operand c) s) hright he).trans
          (hleft.deepest_le fun inner hinner ↦
            Place.next_connective c hinner (Layer.le_trans hs hlayer))
      · obtain ⟨⟨m, -, hderives⟩, hstops⟩ := hread hsigned hright
        have hshorter := length_lt_of_outcome hright
        rw [List.length_cons] at hlength
        exact ih rest.length (by omega)
          (hleft.join (Layer.le_trans hs hlayer)
            (hderives.traverses (inside_cons_le (.operand c) s)))
          hlayer ((stops_right_iff c).mp hstops) hgoes rfl
    · have hleave : ∀ c, Connective.ofToken? lexeme.token = some c → ¬ layer ≤ c.layer :=
        fun c hc hlayer ↦ htake ⟨c, hc, hlayer⟩
      rw [outcome_chain_leave hleave] at h
      cases h

end Reaches

/-- By induction on the levels that are left: a reader with one more level reads its operands with
those below. -/
theorem reachesDepth_expression (limit stop levels : Nat) :
    ReachesDepth (expression limit stop levels) levels := by
  induction levels with
  | zero =>
    intro layer lexemes s e _ _ _ _
    exact Place.length_le_deepest ⟨s, false⟩ (tokens lexemes)
  | succ levels ih =>
    intro layer lexemes s e hlayer hs h he
    have hfinds : FindsDerivations (expression limit stop levels) levels :=
      derives_of_outcome_expression limit stop levels
    rw [outcome_expression_succ] at h
    have hle : s.length + 1 + levels ≤ Place.deepest ⟨s, false⟩ (tokens lexemes) := by
      rcases thenRead_eq_error h with hoperand | ⟨lhs, after, hoperand, hchain⟩
      · exact le_deepest_of_operand hfinds ih hoperand he
      · obtain ⟨n, -, layer', hsigned, hlhs, hadmits⟩ := derives_of_outcome_operand hfinds hoperand
        have hle : layer ≤ layer' := Layer.le_trans hlayer hsigned
        exact le_deepest_of_chain hfinds ih hs (hlhs.traverses (Layer.le_trans hs hle)) hle hadmits
          hchain he
    omega

/-! ### Where a formula nests too deeply -/

/-- What is wrong with a token is not its depth. -/
theorem Token.not_isTooDeep_of_read {c : Char} {cs : List Char} {cause : ParseCause}
    (h : Token.read c cs = .error cause) (offset : Nat) :
    ¬ ParseError.IsTooDeep ⟨cause, offset⟩ := by
  rintro ⟨limit, rfl⟩
  unfold Token.read at h
  split at h
  · cases h
  split at h
  · dsimp only at h
    split at h
    · cases h
    · split at h <;> cases h
  · split at h <;> cases h

/-- A formula that is not scanned is not too deep. -/
theorem not_isTooDeep_of_scanFrom {cs : List Char} {offset : Nat} {e : ParseError}
    (h : scanFrom cs offset = .error e) : ¬ e.IsTooDeep := by
  fun_induction scanFrom cs offset with
  | case1 => cases h
  | case2 offset c cs hblank ih => exact ih h
  | case3 offset c cs hblank cause hread =>
    cases h
    exact Token.not_isTooDeep_of_read hread offset
  | case4 offset c cs hblank token chars hread error hrest ih =>
    cases h
    exact ih hrest
  | case5 => cases h

/-- A formula that is scanned is too deep exactly if its first expression is. -/
theorem parseLexemes_eq_error_iff_of_isTooDeep {limit stop : Nat} {lexemes : List Lexeme}
    {e : ParseError} (he : e.IsTooDeep) :
    parseLexemes limit stop lexemes = .error e ↔
      outcome (expression limit stop limit .sum lexemes) = .error e := by
  refine ⟨fun h ↦ ?_, parseLexemes_eq_error⟩
  obtain ⟨limit', hcause⟩ := he
  unfold parseLexemes at h
  split at h
  · next error hread =>
    rw [hread]
    exact congrArg Except.error (Except.error.inj h)
  · cases h
  · split at h
    · cases h
      cases hcause
    · cases h
      cases hcause

/-- So a formula that is too deep has as many enclosures open in one place as the limit allows. -/
theorem nestingLimit_le_deepest {formula : String} {lexemes : List Lexeme} {e : ParseError}
    (hscan : scan formula = .ok lexemes) (h : parse formula = .error e) (he : e.IsTooDeep) :
    nestingLimit ≤ Place.start.deepest (tokens lexemes) := by
  rw [parse_eq_parseLexemes hscan, parseLexemes_eq_error_iff_of_isTooDeep he] at h
  have hle := reachesDepth_expression nestingLimit _ nestingLimit (s := []) (by decide)
    (Layer.le_refl .sum) h he
  rw [List.length_nil, Nat.zero_add] at hle
  exact hle

/-- Wherever one stands between the tokens of the formula, the enclosures that are open count at
most so much. -/
def EnclosesAtMost (formula : String) (bound : Nat) (count : List Enclosure → Nat) : Prop :=
  ∀ lexemes, scan formula = .ok lexemes → ∀ before, before <+: tokens lexemes →
    count (Place.start.run before).opened ≤ bound

/-- How many enclosures a formula has open in one place at most can be read off its tokens. -/
theorem enclosesAtMost_length_iff {formula : String} {lexemes : List Lexeme} {bound : Nat}
    (hscan : scan formula = .ok lexemes) :
    EnclosesAtMost formula bound List.length ↔ Place.start.deepest (tokens lexemes) ≤ bound := by
  rw [← Nat.lt_succ_iff, Place.deepest_lt_iff]
  constructor
  · intro h before hbefore
    exact Nat.lt_succ_iff.mpr (h lexemes hscan before hbefore)
  · intro h lexemes' hscan' before hbefore
    obtain rfl : lexemes = lexemes' := Except.ok.inj (hscan.symm.trans hscan')
    exact Nat.lt_succ_iff.mp (h before hbefore)

/-- With one enclosure less than the limit, no formula is too deep. -/
theorem not_isTooDeep_of_parse {formula : String} {e : ParseError}
    (hwithin : EnclosesAtMost formula 255 List.length) (h : parse formula = .error e) :
    ¬ e.IsTooDeep := by
  intro he
  rcases hscan : scan formula with error | lexemes
  · rw [parse, parseWithin, hscan] at h
    obtain rfl := Except.error.inj h
    exact not_isTooDeep_of_scanFrom hscan he
  · have hle := nestingLimit_le_deepest hscan h he
    have hge := (enclosesAtMost_length_iff hscan).mp hwithin
    have hlimit : nestingLimit = 256 := rfl
    omega

/-! ### Operands of sums and products between other enclosures -/

/-- The enclosures are open in one place: an operand of a sum or a product stands directly in
something looser than itself. -/
def Nested : List Enclosure → Prop
  | [] => True
  | f :: s => (f.isNesting = false → (inside s).rank < f.layer.rank) ∧ Nested s

/-- Enclosures that nest do so without the innermost ones. -/
theorem Nested.of_suffix {s t : List Enclosure} (h : Nested s) (hsuffix : t <:+ s) : Nested t := by
  induction s with
  | nil =>
    rw [List.suffix_nil.mp hsuffix]
    trivial
  | cons f s ih =>
    rcases List.suffix_cons_iff.mp hsuffix with rfl | hsuffix
    · exact h
    · exact ih h.2 hsuffix

/-- There are at most two operands of sums and products in each other: a term and a factor. -/
theorem Nested.length_le {s : List Enclosure} (h : Nested s) :
    s.length + (2 - (inside s).rank) ≤ 3 * s.countP Enclosure.isNesting + 2 := by
  induction s with
  | nil => decide
  | cons f s ih =>
    have hs := ih h.2
    rw [List.countP_cons, List.length_cons]
    show s.length + 1 + (2 - f.layer.rank) ≤ _
    cases hnesting : f.isNesting with
    | true =>
      rw [if_pos rfl]
      omega
    | false =>
      have hlt := h.1 hnesting
      have hrank : f.layer.rank ≤ 2 := by
        rcases f with _ | _ | c
        · decide
        · decide
        · cases c <;> decide
      rw [if_neg (by decide)]
      omega

namespace Place

/-- What connectives keep open holds more than their operands. -/
theorem inside_dropWhile_le (s : List Enclosure) (c : Connective) :
    inside (s.dropWhile (¬ ·.layer ≤ c.layer)) ≤ c.layer := by
  have hhead := List.head?_dropWhile_not (fun f : Enclosure ↦ decide (¬ f.layer ≤ c.layer)) s
  cases hs : s.dropWhile (¬ ·.layer ≤ c.layer) with
  | nil => exact Nat.zero_le _
  | cons f rest =>
    rw [hs] at hhead
    show f.layer ≤ c.layer
    simpa using hhead

/-- One token on, the enclosures still nest in the same way. -/
theorem nested_next {p : Place} (h : Nested p.opened) (token : Token) :
    Nested (p.next token).opened := by
  have hconnective (c : Connective) :
      Nested (.operand c :: p.opened.dropWhile (¬ ·.layer ≤ c.layer)) := by
    refine ⟨fun hc ↦ ?_, h.of_suffix (List.dropWhile_suffix _)⟩
    have hle : (inside (p.opened.dropWhile (¬ ·.layer ≤ c.layer))).rank ≤ c.layer.rank :=
      inside_dropWhile_le p.opened c
    have hlt : c.layer.rank < c.right.rank := by
      cases c <;> first | decide | exact absurd hc (by decide)
    exact Nat.lt_of_le_of_lt hle hlt
  have hsign : Nested (.sign :: p.opened) := ⟨nofun, h⟩
  rcases p with ⟨s, afterOperand⟩
  cases token with
  | number _ | identifier _ => exact h
  | opening => exact ⟨nofun, h⟩
  | closing => exact h.of_suffix ((List.tail_suffix _).trans (List.dropWhile_suffix _))
  | comma => exact h.of_suffix (List.dropWhile_suffix _)
  | plus => cases afterOperand; exacts [h, hconnective .plus]
  | minus => cases afterOperand; exacts [hsign, hconnective .minus]
  | star => cases afterOperand; exacts [h, hconnective .times]
  | slash => cases afterOperand; exacts [h, hconnective .dividedBy]
  | caret => cases afterOperand; exacts [h, hconnective .caret]

theorem nested_run {p : Place} (h : Nested p.opened) (tokens : List Token) :
    Nested (p.run tokens).opened := by
  induction tokens generalizing p with
  | nil => exact h
  | cons token tokens ih => exact ih (nested_next h token)

end Place

/-- A third of the limit is safe whatever else encloses. -/
theorem EnclosesAtMost.length_of_nesting {formula : String} {bound : Nat}
    (h : EnclosesAtMost formula bound (List.countP Enclosure.isNesting)) :
    EnclosesAtMost formula (3 * bound + 2) List.length := by
  intro lexemes hscan before hbefore
  have hnesting := h lexemes hscan before hbefore
  have hnested : Nested (Place.start.run before).opened :=
    Place.nested_run (p := .start) trivial before
  have hle := hnested.length_le
  omega

theorem EnclosesAtMost.mono {formula : String} {bound bound' : Nat} {count : List Enclosure → Nat}
    (h : EnclosesAtMost formula bound count) (hle : bound ≤ bound') :
    EnclosesAtMost formula bound' count :=
  fun lexemes hscan before hbefore ↦ (h lexemes hscan before hbefore).trans hle

/-- A formula does not nest too deeply if nowhere more than 255 enclosures are open. That is exact
for a formula that spells an expression. Without the operands of sums and products the count must
nowhere be more than 84. -/
theorem not_tooDeep_of_enclosesAtMost (formula : String) :
    (EnclosesAtMost formula 255 List.length →
        ∀ limit offset, parse formula ≠ .error ⟨.tooDeep limit, offset⟩) ∧
      (EnclosesAtMost formula 84 (List.countP Enclosure.isNesting) →
        ∀ limit offset, parse formula ≠ .error ⟨.tooDeep limit, offset⟩) ∧
      ∀ lexemes e, scan formula = .ok lexemes → Spells (tokens lexemes) e →
        ((∃ offset, parse formula = .error ⟨.tooDeep nestingLimit, offset⟩) ↔
          ¬ EnclosesAtMost formula 255 List.length) := by
  have hall : EnclosesAtMost formula 255 List.length →
      ∀ limit offset, parse formula ≠ .error ⟨.tooDeep limit, offset⟩ :=
    fun hwithin limit offset hparse ↦ not_isTooDeep_of_parse hwithin hparse ⟨limit, rfl⟩
  refine ⟨hall, fun hnesting ↦ hall (hnesting.length_of_nesting.mono (by decide)), ?_⟩
  rintro lexemes e hscan ⟨n, hderives⟩
  constructor
  · rintro ⟨offset, hparse⟩ hwithin
    exact hall hwithin _ offset hparse
  · intro hbeyond
    obtain ⟨read, inner, hread, -, -, hdeepest⟩ :=
      hderives.traverses (s := []) (Layer.le_refl .sum)
    rw [List.append_nil] at hread
    rw [enclosesAtMost_length_iff hscan, hread] at hbeyond
    have hstart : Place.start = ⟨[], false⟩ := rfl
    rw [List.length_nil, ← hstart] at hdeepest
    have hlimit : nestingLimit = 256 := rfl
    rw [parse_eq_parseLexemes hscan]
    exact hderives.parseLexemes_tooDeep (by omega)

/-- An operand of a sum, a group, an operand of a product and a minus sign are open in one place
here, which is far from too deep. -/
theorem productInGroup_not_tooDeep :
    EnclosesAtMost "a + (b * -c)" 255 List.length ∧
      EnclosesAtMost "a + (b * -c)" 84 (List.countP Enclosure.isNesting) ∧
      (∀ limit offset, parse "a + (b * -c)" ≠ .error ⟨.tooDeep limit, offset⟩) ∧
      ∃ lexemes e, scan "a + (b * -c)" = .ok lexemes ∧ Spells (tokens lexemes) e ∧
        ¬ ∃ offset, parse "a + (b * -c)" = .error ⟨.tooDeep nestingLimit, offset⟩ := by
  have hscan : scan "a + (b * -c)" = .ok [⟨.identifier "a", 0⟩, ⟨.plus, 2⟩, ⟨.opening, 4⟩,
      ⟨.identifier "b", 5⟩, ⟨.star, 7⟩, ⟨.minus, 9⟩, ⟨.identifier "c", 10⟩, ⟨.closing, 11⟩] := by
    cbv
  have hparse : parse "a + (b * -c)" = .ok (.add (.symbol "a")
      (.multiply (.symbol "b") (.negate (.symbol "c")))) := by cbv
  have hdeepest : EnclosesAtMost "a + (b * -c)" 4 List.length :=
    (enclosesAtMost_length_iff hscan).mpr (by decide)
  have hnesting : EnclosesAtMost "a + (b * -c)" 4 (List.countP Enclosure.isNesting) :=
    fun lexemes hlexemes before hbefore ↦
      List.countP_le_length.trans (hdeepest lexemes hlexemes before hbefore)
  have hspells := (parse_eq_ok_iff_spells hscan _).1 hparse
  obtain ⟨hall, hthird, hexact⟩ := not_tooDeep_of_enclosesAtMost "a + (b * -c)"
  exact ⟨hdeepest.mono (by decide), hnesting.mono (by decide), hall (hdeepest.mono (by decide)),
    _, _, hscan, hspells, fun h ↦ (hexact _ _ hscan hspells).mp h (hdeepest.mono (by decide))⟩

/-! ### Sums in sums -/

/-- The token can open an enclosure that nests. -/
def Token.opensNesting : Token → Bool
  | .opening | .minus | .caret => true
  | _ => false

namespace Place

/-- A token opens at most one enclosure that counts, and only if it is a token that does. -/
theorem countP_next_le (p : Place) (token : Token) :
    (p.next token).opened.countP Enclosure.isNesting ≤
      p.opened.countP Enclosure.isNesting + if token.opensNesting then 1 else 0 := by
  have hdrop (keep : Enclosure → Bool) :
      (p.opened.dropWhile keep).countP Enclosure.isNesting ≤
        p.opened.countP Enclosure.isNesting :=
    (List.dropWhile_sublist _).countP_le
  have hconnective (c : Connective) :
      (Enclosure.operand c :: p.opened.dropWhile (¬ ·.layer ≤ c.layer)).countP
          Enclosure.isNesting ≤
        p.opened.countP Enclosure.isNesting + if c = .caret then 1 else 0 := by
    rw [List.countP_cons]
    exact Nat.add_le_add (hdrop _) (by cases c <;> decide)
  rcases p with ⟨s, afterOperand⟩
  cases token with
  | number _ | identifier _ => exact Nat.le_refl _
  | opening => exact Nat.le_of_eq List.countP_cons
  | closing => exact ((List.tail_sublist _).countP_le).trans (hdrop _)
  | comma => exact hdrop _
  | plus => cases afterOperand; exacts [Nat.le_refl _, hconnective .plus]
  | minus =>
    cases afterOperand
    · exact Nat.le_of_eq List.countP_cons
    · exact (hconnective .minus).trans (Nat.le_succ _)
  | star => cases afterOperand; exacts [Nat.le_refl _, hconnective .times]
  | slash => cases afterOperand; exacts [Nat.le_refl _, hconnective .dividedBy]
  | caret => cases afterOperand; exacts [Nat.le_succ _, hconnective .caret]

/-- No more nesting enclosures are open than tokens came that open one. -/
theorem countP_run_le (p : Place) (tokens : List Token) :
    (p.run tokens).opened.countP Enclosure.isNesting ≤
      p.opened.countP Enclosure.isNesting + tokens.countP Token.opensNesting := by
  induction tokens generalizing p with
  | nil => exact Nat.le_refl _
  | cons token tokens ih =>
    have hnext := p.countP_next_le token
    have hrest := ih (p.next token)
    rw [run_cons, List.countP_cons]
    omega

end Place

namespace Expr

/-- A sum whose last term is such a sum, so many times. -/
def nestedSums : Nat → Expr
  | 0 => .operation .add [.symbol "x", .symbol "x"]
  | n + 1 => .operation .add [.symbol "x", nestedSums n]

theorem layer_nestedSums (n : Nat) : (nestedSums n).layer = .sum := by cases n <;> rfl

/-- The sums are printed as they are read. -/
theorem printable_nestedSums (n : Nat) : (nestedSums n).Printable := by
  have hsymbol : (symbol "x").Printable := printable_symbol rfl
  induction n with
  | zero =>
    rw [nestedSums, printable_operation, List.forall_mem_cons, List.forall_mem_singleton]
    exact ⟨rfl, hsymbol, hsymbol⟩
  | succ n ih =>
    rw [nestedSums, printable_operation, List.forall_mem_cons, List.forall_mem_singleton]
    exact ⟨rfl, hsymbol, ih⟩

/-- The pieces of a sum are its symbol, its sign and those of the term in parentheses. -/
theorem pieces_nestedSums_succ (n : Nat) :
    (nestedSums (n + 1)).pieces = [⟨.identifier "x", .tight⟩, ⟨.plus, .around⟩,
      ⟨.opening, .tight⟩] ++ (nestedSums n).pieces ++ [⟨.closing, .tight⟩] := by
  have hlink : Connective.link .plus (nestedSums n) = (.plus, nestedSums n) := by cases n <;> rfl
  have hplace : ¬ Connective.plus.right ≤ (nestedSums n).layer := by
    rw [layer_nestedSums]
    decide
  rw [nestedSums, pieces_linked (c := .plus) rfl rfl, List.flatMap_cons, List.flatMap_nil,
    List.append_nil, linkPieces, hlink, inPlace, inPlace, if_neg hplace]
  rfl

/-- Each sum is one level deeper than the group around it, and the group one deeper than the sum
around it. -/
theorem levels_nestedSums (n : Nat) : (nestedSums n).levels = 2 * n + 2 := by
  induction n with
  | zero => decide
  | succ n ih =>
    have hlink : Connective.link .plus (nestedSums n) = (.plus, nestedSums n) := by
      cases n <;> rfl
    have hplace : ¬ Connective.plus.right ≤ (nestedSums n).layer := by
      rw [layer_nestedSums]
      decide
    rw [nestedSums, levels_linked (c := .plus) rfl rfl, List.foldl_cons, List.foldl_nil, linkLevels,
      hlink, levelsInPlace, levelsInPlace, if_neg hplace, ih]
    show max 1 (2 * n + 2 + 1 + 1) = 2 * (n + 1) + 2
    omega

/-- Each level has one token that opens a counting enclosure. -/
theorem countP_nestedSums (n : Nat) :
    ((nestedSums n).pieces.map Piece.token).countP Token.opensNesting = n := by
  induction n with
  | zero => decide
  | succ n ih =>
    rw [pieces_nestedSums_succ, List.map_append, List.map_append, List.countP_append,
      List.countP_append, ih]
    show 1 + n + 0 = n + 1
    omega

/-- Only its groups are said to nest. -/
theorem enclosesAtMost_nestedSums (n : Nat) :
    EnclosesAtMost (nestedSums n).text n (List.countP Enclosure.isNesting) := by
  intro lexemes hscan before hbefore
  have hseparated : Separated (nestedSums n).pieces := by
    have hall := (printable_nestedSums n).fragment.separated [] trivial rfl
    rwa [List.append_nil] at hall
  obtain ⟨lexemes', hscan', htokens⟩ := scan_join_of_separated hseparated
  obtain rfl : lexemes = lexemes' := Except.ok.inj (hscan.symm.trans hscan')
  have hrun := Place.countP_run_le .start before
  have hcount : before.countP Token.opensNesting ≤ n := by
    rw [← countP_nestedSums n, ← htokens]
    exact hbefore.sublist.countP_le
  have hstart : Place.start.opened.countP Enclosure.isNesting = 0 := rfl
  omega

/-- Each level of the sums takes two levels of nesting, one for the term and one for its
parentheses. -/
theorem parse_nestedSums {n : Nat} (hn : nestingLimit < 2 * n + 2) :
    ∃ offset, parse (nestedSums n).text = .error ⟨.tooDeep nestingLimit, offset⟩ := by
  have hparse := parse_text (printable_nestedSums n)
  rwa [levels_nestedSums, if_neg (Nat.not_le.mpr hn)] at hparse

/-- A formula that has 128 groups in one another, and nothing else that is said to nest, nests too
deeply. -/
theorem nestedSums_tooDeep :
    EnclosesAtMost (nestedSums 128).text 255 (List.countP Enclosure.isNesting) ∧
      ∃ offset, parse (nestedSums 128).text = .error ⟨.tooDeep nestingLimit, offset⟩ :=
  ⟨(enclosesAtMost_nestedSums 128).mono (by decide), parse_nestedSums (by decide)⟩

end Expr

end Tradeoff
