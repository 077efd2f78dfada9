import Tradeoff.Proofs.Formula.Derivation

/-!
# Reading recognizes every derivation

What the grammar derives is what the readers find, provided that nothing follows which would let
them go on (`Follows`), and provided that there are enough levels: exactly as many as the derivation
is deep. With fewer the error is that operands nest too deeply. So a formula is read if and only if
the grammar derives it within the limit, a formula that is derived beyond the limit is too deep, and
no formula spells two expressions.

The induction is over derivations. Its statement cannot be that reading at the layer of a derivation
ends with the derived expression, because a sum is not read by reading a sum and then a term: the
chain that read the sum goes on. It is that reading *any* looser layer comes to the point where the
chain has the derived expression on its left (`Recognized`).
-/

namespace Tradeoff

/-! ### As many levels as a derivation is deep -/

/-- With enough levels the first outcome is the second; with fewer operands nest too deeply. -/
def Within (limit depth levels : Nat) {α : Type}
    (r s : Except ParseError (α × List Lexeme)) : Prop :=
  if depth ≤ levels then r = s else ∃ offset, r = .error ⟨.tooDeep limit, offset⟩

namespace Within

variable {limit n m levels : Nat} {α β : Type}

/-- With levels enough the results are the same. -/
theorem of_eq {r s : Except ParseError (α × List Lexeme)} (h : r = s) (hn : n ≤ levels) :
    Within limit n levels r s := by
  simpa [Within, hn] using h

/-- With too few levels it is an error. -/
theorem of_lt {r s : Except ParseError (α × List Lexeme)} {offset : Nat}
    (h : r = .error ⟨.tooDeep limit, offset⟩) (hn : levels < n) : Within limit n levels r s := by
  have hnot : ¬ n ≤ levels := by omega
  simp [Within, hnot, h]

/-- One more level is needed around what needs some levels. -/
theorem succ {r s : Except ParseError (α × List Lexeme)} (h : Within limit n levels r s) :
    Within limit (n + 1) (levels + 1) r s := by
  simpa [Within] using h

/-- Two parts at one level need as many levels as the deeper one. -/
theorem trans {r s t : Except ParseError (α × List Lexeme)} (h : Within limit n levels r s)
    (h' : Within limit m levels s t) : Within limit (max n m) levels r t := by
  by_cases hn : n ≤ levels
  · have hrs : r = s := by simpa [Within, hn] using h
    by_cases hm : m ≤ levels
    · have hst : s = t := by simpa [Within, hm] using h'
      exact of_eq (hrs.trans hst) (by omega)
    · obtain ⟨offset, hs⟩ : ∃ offset, s = .error ⟨.tooDeep limit, offset⟩ := by
        simpa [Within, hm] using h'
      exact of_lt (hrs.trans hs) (by omega)
  · obtain ⟨offset, hr⟩ : ∃ offset, r = .error ⟨.tooDeep limit, offset⟩ := by
      simpa [Within, hn] using h
    exact of_lt hr (by omega)

/-- What is read within the levels can be read on. -/
theorem thenRead {r : Except ParseError (α × List Lexeme)} {value : α} {rest : List Lexeme}
    (next : α → List Lexeme → Except ParseError (β × List Lexeme))
    (h : Within limit n levels r (.ok (value, rest))) :
    Within limit n levels (thenRead r next) (next value rest) := by
  by_cases hn : n ≤ levels
  · have hr : r = .ok (value, rest) := by simpa [Within, hn] using h
    exact of_eq (by rw [hr, thenRead_ok]) hn
  · obtain ⟨offset, hr⟩ : ∃ offset, r = .error ⟨.tooDeep limit, offset⟩ := by
      simpa [Within, hn] using h
    exact of_lt (by rw [hr, thenRead_error]) (by omega)

/-- An operand that is read one level deeper. -/
theorem inner {r : Except ParseError (β × List Lexeme)} {r' : Except ParseError (α × List Lexeme)}
    {value : α} {rest : List Lexeme}
    {next : α → List Lexeme → Except ParseError (β × List Lexeme)}
    (h : Within limit n (levels + 1) r (Tradeoff.thenRead r' next))
    (h' : Within limit m levels r' (.ok (value, rest))) :
    Within limit (max n (m + 1)) (levels + 1) r (next value rest) :=
  h.trans (h'.succ.thenRead next)

end Within

/-! ### What may follow -/

/-- What may follow an expression of the layer: no call begins, and a connective only if it may
follow. -/
structure Follows (layer : Layer) (rest : List Token) : Prop where
  /-- A name before the tokens is not called. -/
  noCall : rest.head? ≠ some .opening
  /-- A connective may follow. -/
  admits : Admits layer rest

namespace Follows

theorem mono {layer layer' : Layer} {rest : List Token} (h : Follows layer rest)
    (hle : layer ≤ layer') : Follows layer' rest :=
  ⟨h.noCall, h.admits.mono hle⟩

/-- Tokens that start with no connective may follow anything. -/
theorem of_next?_eq_none {layer : Layer} {rest : List Token} (hcall : rest.head? ≠ some .opening)
    (hnext : Connective.next? rest = none) : Follows layer rest :=
  ⟨hcall, fun c hc ↦ by rw [hnext] at hc; cases hc⟩

/-- A connective may follow its left operand. -/
theorem connective (c : Connective) (rest : List Token) : Follows c.left (c.token :: rest) := by
  refine ⟨by cases c <;> simp [Connective.token], fun c' hc' ↦ ?_⟩
  obtain rfl : c' = c := by
    have htoken : c.token = c'.token := Connective.ofToken?_eq_some_iff.mp hc'
    cases c <;> cases c' <;> first | rfl | cases htoken
  exact Layer.le_refl _

/-- What may follow the whole may follow its right operand. -/
theorem right {c : Connective} {rest : List Token} (h : Follows c.layer rest) :
    Follows c.right rest :=
  ⟨h.noCall, h.admits.right⟩

end Follows

/-! ### Derivations are recognized -/

/-- A derivation has at least one level, its own. -/
theorem Derives.pos {n : Nat} {layer : Layer} {input rest : List Token} {e : Expr} :
    Derives n layer input e rest → 1 ≤ n
  | .ofProduct h | .ofSigned h | .ofPower h | .ofAtom h => h.pos
  | .add _ _ _ | .subtract _ _ _ | .multiply _ _ _ | .divide _ _ | .power _ _ => by omega
  | .negative _ _ | .call _ _ | .group _ => by omega
  | .number | .name _ | .callNone _ => Nat.le_refl 1

/-- No expression starts with a closing parenthesis. -/
theorem Derives.head?_ne_closing {n : Nat} {layer : Layer} {input rest : List Token} {e : Expr} :
    Derives n layer input e rest → input.head? ≠ some .closing
  | .ofProduct h | .ofSigned h | .ofPower h | .ofAtom h => h.head?_ne_closing
  | .add h _ _ | .subtract h _ _ | .multiply h _ _ | .divide h _ | .power h _ => h.head?_ne_closing
  | .negative _ _ | .call _ _ | .group _ | .number | .name _ | .callNone _ => by simp

theorem DerivesArguments.head?_ne_closing {n : Nat} {input rest : List Token} {args : List Expr} :
    DerivesArguments n input args rest → input.head? ≠ some .closing
  | .one h | .more h _ => h.head?_ne_closing

section Recognized

variable (limit stop : Nat)

/-- Reading `input` at the layer or a looser one comes to the point where the chain has `e` on its
left and `rest` before it. -/
def Recognized (n : Nat) (layer : Layer) (input : List Token) (e : Expr) (rest : List Token) :
    Prop :=
  ∀ lexemes, tokens lexemes = input → ∃ left, tokens left = rest ∧
    ∀ levels layer', layer' ≤ layer → layer' ≤ .signed →
      Within limit n (levels + 1) (outcome (expression limit stop (levels + 1) layer' lexemes))
        (outcome (chain (expression limit stop levels) layer' e left))

/-- Reading `input` as arguments ends after the closing parenthesis that `rest` starts with. -/
def RecognizedArguments (n : Nat) (input : List Token) (args : List Expr) (rest : List Token) :
    Prop :=
  ∀ lexemes, tokens lexemes = input → ∃ left, tokens left = rest ∧
    ∀ opened levels, Within limit n levels
      (outcome (arguments (expression limit stop levels) opened lexemes)) (.ok (args, left.tail))

variable {limit stop}

/-- Where the chain can go no further, what has been recognized is found. -/
theorem Recognized.found {n : Nat} {layer layer' : Layer} {input rest : List Token} {e : Expr}
    (h : Recognized limit stop n layer input e rest) (hn : 1 ≤ n) (hle : layer' ≤ layer)
    (hsigned : layer' ≤ .signed) (hstops : Stops layer' rest) :
    ∀ lexemes, tokens lexemes = input → ∃ left, tokens left = rest ∧ ∀ levels,
      Within limit n levels (outcome (expression limit stop levels layer' lexemes))
        (.ok (e, left)) := by
  intro lexemes hlexemes
  obtain ⟨left, rfl, hleft⟩ := h lexemes hlexemes
  refine ⟨left, rfl, fun levels ↦ ?_⟩
  cases levels with
  | zero => exact .of_lt (outcome_expression_zero layer' lexemes) hn
  | succ levels =>
    -- The chain leaves the tokens that are left as they are.
    have hchain : outcome (chain (expression limit stop levels) layer' e left) = .ok (e, left) := by
      cases left with
      | nil => exact outcome_chain_nil layer' e
      | cons lexeme left => exact outcome_chain_leave hstops e left
    simpa only [hchain] using hleft levels layer' hle hsigned

/-- Reading an operand that is an atom. -/
theorem recognized_of_operand {n : Nat} {layer : Layer} {input rest : List Token} {e : Expr}
    (h : ∀ lexemes, tokens lexemes = input → ∃ left, tokens left = rest ∧ ∀ levels,
      Within limit n (levels + 1) (outcome (operand stop (expression limit stop levels) lexemes))
        (.ok (e, left))) :
    Recognized limit stop n layer input e rest := by
  intro lexemes hlexemes
  obtain ⟨left, hleft, hoperand⟩ := h lexemes hlexemes
  refine ⟨left, hleft, fun levels layer' _ _ ↦ ?_⟩
  rw [outcome_expression_succ]
  exact (hoperand levels).thenRead _

/-- A connective between two operands: the chain takes it. -/
theorem Recognized.join {c : Connective} {n m : Nat} {input middle rest : List Token} {a b : Expr}
    (ha : Recognized limit stop n c.left input a (c.token :: middle))
    (hb : Recognized limit stop m c.right middle b rest) (hm : 1 ≤ m)
    (hfollows : Follows c.layer rest) :
    Recognized limit stop (max n (m + 1)) c.layer input (c.join a b) rest := by
  intro lexemes hlexemes
  obtain ⟨left, hleft, hbefore⟩ := ha lexemes hlexemes
  obtain ⟨offset, tail, rfl, htail⟩ := exists_of_tokens_eq_cons hleft
  have hstops : Stops c.right rest := (stops_right_iff c).mpr hfollows.admits
  obtain ⟨left', hleft', hright⟩ :=
    hb.found hm (Layer.le_refl _) (by cases c <;> decide) hstops tail htail
  refine ⟨left', hleft', fun levels layer' hle hsigned ↦ ?_⟩
  -- The chain comes to the connective with the left operand, and its reader finds the right one.
  have hchain := hbefore levels layer' (Layer.le_trans hle c.layer_le_left) hsigned
  rw [outcome_chain_take (Connective.ofToken?_eq_some_iff.mpr rfl) hle] at hchain
  exact hchain.inner (hright levels)

/-- A minus sign before a signed operand, which is read as far as it goes. -/
theorem Recognized.negative {n : Nat} {input rest : List Token} {a : Expr}
    (h : Recognized limit stop n .signed input a rest) (hn : 1 ≤ n)
    (hfollows : Follows .signed rest) :
    Recognized limit stop (n + 1) .signed (.minus :: input) a.signed rest := by
  refine recognized_of_operand fun lexemes hlexemes ↦ ?_
  obtain ⟨offset, tail, rfl, htail⟩ := exists_of_tokens_eq_cons hlexemes
  have hstops : Stops .signed rest := stops_signed_iff.mpr hfollows.admits
  obtain ⟨left, hleft, hfound⟩ :=
    h.found hn (Layer.le_refl _) (Layer.le_refl _) hstops tail htail
  refine ⟨left, hleft, fun levels ↦ ?_⟩
  rw [outcome_operand_minus]
  exact (hfound levels).succ.thenRead _

/-- Reading stops at any token that is no connective. -/
theorem stops_of_next?_eq_none {layer : Layer} {rest : List Token}
    (h : Connective.next? rest = none) : Stops layer rest :=
  fun c hc ↦ by rw [h] at hc; cases hc

/-- A group: a sum up to the closing parenthesis. -/
theorem Recognized.group {n : Nat} {input rest : List Token} {e : Expr}
    (h : Recognized limit stop n .sum input e (.closing :: rest)) (hn : 1 ≤ n) :
    Recognized limit stop (n + 1) .atom (.opening :: input) e rest := by
  refine recognized_of_operand fun lexemes hlexemes ↦ ?_
  obtain ⟨offset, tail, rfl, htail⟩ := exists_of_tokens_eq_cons hlexemes
  obtain ⟨left, hleft, hfound⟩ :=
    h.found hn (Layer.le_refl _) (by decide) (stops_of_next?_eq_none rfl) tail htail
  obtain ⟨offset', left, rfl, hrest⟩ := exists_of_tokens_eq_cons hleft
  refine ⟨left, hrest, fun levels ↦ ?_⟩
  rw [outcome_operand_opening, outcome_group]
  simpa [close] using (hfound levels).succ.thenRead (close offset)

/-- A call with arguments. -/
theorem RecognizedArguments.call {n : Nat} {name : String} {input rest : List Token}
    {args : List Expr} {e : Expr}
    (h : RecognizedArguments limit stop n input args (.closing :: rest))
    (hinput : input.head? ≠ some .closing) (hcalled : Called name args e) :
    Recognized limit stop (n + 1) .atom (.identifier name :: .opening :: input) e rest := by
  refine recognized_of_operand fun lexemes hlexemes ↦ ?_
  obtain ⟨offset, _, rfl, hopened⟩ := exists_of_tokens_eq_cons hlexemes
  obtain ⟨opened, tail, rfl, rfl⟩ := exists_of_tokens_eq_cons hopened
  obtain ⟨left, hleft, hfound⟩ := h tail rfl
  obtain ⟨_, left, rfl, hrest⟩ := exists_of_tokens_eq_cons hleft
  refine ⟨left, hrest, fun levels ↦ ?_⟩
  rw [outcome_operand_call, outcome_call, argumentList_of_head?_ne opened hinput]
  simpa [applyCall, called_iff.mp hcalled] using
    (hfound opened levels).succ.thenRead (applyCall name offset)

/-- The last argument of a call. -/
theorem Recognized.lastArgument {n : Nat} {input rest : List Token} {arg : Expr}
    (h : Recognized limit stop n .sum input arg rest) (hn : 1 ≤ n)
    (hclosing : rest.head? = some .closing) :
    RecognizedArguments limit stop n input [arg] rest := by
  intro lexemes hlexemes
  obtain ⟨rest, rfl⟩ := List.head?_eq_some_iff.mp hclosing
  obtain ⟨left, hleft, hfound⟩ :=
    h.found hn (Layer.le_refl _) (by decide) (stops_of_next?_eq_none rfl) lexemes hlexemes
  refine ⟨left, hleft, fun opened levels ↦ ?_⟩
  obtain ⟨offset, left, rfl, -⟩ := exists_of_tokens_eq_cons hleft
  rw [outcome_arguments]
  simpa [closeOrMore] using
    (hfound levels).thenRead (closeOrMore (expression limit stop levels) opened)

/-- An argument before others. -/
theorem Recognized.moreArguments {n m : Nat} {input middle rest : List Token} {arg : Expr}
    {args : List Expr} (h : Recognized limit stop n .sum input arg (.comma :: middle)) (hn : 1 ≤ n)
    (hmore : RecognizedArguments limit stop m middle args rest) :
    RecognizedArguments limit stop (max n m) input (arg :: args) rest := by
  intro lexemes hlexemes
  obtain ⟨left, hleft, hfound⟩ :=
    h.found hn (Layer.le_refl _) (by decide) (stops_of_next?_eq_none rfl) lexemes hlexemes
  obtain ⟨offset, middle, rfl, hmiddle⟩ := exists_of_tokens_eq_cons hleft
  obtain ⟨left, hrest, hargs⟩ := hmore middle hmiddle
  refine ⟨left, hrest, fun opened levels ↦ ?_⟩
  have harg := (hfound levels).thenRead (closeOrMore (expression limit stop levels) opened)
  have hrests := (hargs opened levels).thenRead fun args rest ↦ .ok (arg :: args, rest)
  rw [outcome_arguments]
  simp only [closeOrMore, reduceCtorEq, if_false, if_true] at harg
  exact harg.trans hrests

mutual

/-- Every derivation is recognized where the tokens after it may follow it. -/
theorem Derives.recognized {n : Nat} {layer : Layer} {input rest : List Token} {e : Expr} :
    Derives n layer input e rest → Follows layer rest → Recognized limit stop n layer input e rest
  | .ofProduct h, hfollows | .ofSigned h, hfollows | .ofPower h, hfollows
  | .ofAtom h, hfollows => by
    have hinner := h.recognized (hfollows.mono (by decide))
    exact fun lexemes hlexemes ↦
      let ⟨left, hleft, hreads⟩ := hinner lexemes hlexemes
      ⟨left, hleft, fun levels layer' hle hsigned ↦
        hreads levels layer' (Layer.le_trans hle (by decide)) hsigned⟩
  | .add ha hb he, hfollows => by
    rw [extended_iff.mp he]
    exact (ha.recognized (.connective .plus _)).join (c := .plus)
      (hb.recognized (hfollows.right (c := .plus))) hb.pos hfollows
  | .subtract ha hb he, hfollows => by
    rw [extended_iff.mp he]
    exact (ha.recognized (.connective .minus _)).join (c := .minus)
      (hb.recognized (hfollows.right (c := .minus))) hb.pos hfollows
  | .multiply ha hb he, hfollows => by
    rw [extended_iff.mp he]
    exact (ha.recognized (.connective .times _)).join (c := .times)
      (hb.recognized (hfollows.right (c := .times))) hb.pos hfollows
  | .divide ha hb, hfollows =>
    (ha.recognized (.connective .dividedBy _)).join (c := .dividedBy)
      (hb.recognized (hfollows.right (c := .dividedBy))) hb.pos hfollows
  | .power ha hb, hfollows =>
    (ha.recognized (.connective .caret _)).join (c := .caret)
      (hb.recognized (hfollows.right (c := .caret))) hb.pos hfollows
  | .negative h he, hfollows => by
    rw [negated_iff.mp he]
    exact (h.recognized hfollows).negative h.pos hfollows
  | .number, _ => by
    refine recognized_of_operand fun lexemes hlexemes ↦ ?_
    obtain ⟨offset, tail, rfl, htail⟩ := exists_of_tokens_eq_cons hlexemes
    exact ⟨tail, htail, fun levels ↦ .of_eq (outcome_operand_number _ _ _) (by omega)⟩
  | .name he, hfollows => by
    refine recognized_of_operand fun lexemes hlexemes ↦ ?_
    obtain ⟨offset, tail, rfl, rfl⟩ := exists_of_tokens_eq_cons hlexemes
    rw [named_iff.mp he]
    exact ⟨tail, rfl, fun levels ↦ .of_eq (outcome_operand_name hfollows.noCall _ _) (by omega)⟩
  | .callNone he, _ => by
    refine recognized_of_operand fun lexemes hlexemes ↦ ?_
    obtain ⟨_, _, rfl, hopening⟩ := exists_of_tokens_eq_cons hlexemes
    obtain ⟨_, _, rfl, hclosing⟩ := exists_of_tokens_eq_cons hopening
    obtain ⟨_, tail, rfl, htail⟩ := exists_of_tokens_eq_cons hclosing
    refine ⟨tail, htail, fun levels ↦ .of_eq ?_ (by omega)⟩
    rw [outcome_operand_call, outcome_call]
    simp [argumentList, outcome, applyCall, called_iff.mp he]
  | .call h he, _ => (h.recognized rfl).call h.head?_ne_closing he
  | .group h, _ => (h.recognized (.of_next?_eq_none (by simp) rfl)).group h.pos

/-- Every derivation of arguments before a closing parenthesis is recognized. -/
theorem DerivesArguments.recognized {n : Nat} {input rest : List Token} {args : List Expr} :
    DerivesArguments n input args rest → rest.head? = some .closing →
      RecognizedArguments limit stop n input args rest
  | .one h, hclosing => by
    have hfollows : Follows .sum rest :=
      .of_next?_eq_none (by simp [hclosing])
        (by simp [Connective.next?, hclosing, Connective.ofToken?])
    exact (h.recognized hfollows).lastArgument h.pos hclosing
  | .more h hmore, hclosing =>
    (h.recognized (.of_next?_eq_none (by simp) rfl)).moreArguments h.pos
      (hmore.recognized hclosing)

end

end Recognized

end Tradeoff
