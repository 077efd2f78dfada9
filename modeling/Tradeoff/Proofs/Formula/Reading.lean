import Tradeoff.Formula.Grammar
import Tradeoff.Formula.Parse

/-!
# What readers return

A reader returns what it read with the lexemes left and a proof that it used something up. The
`outcome` of a reader forgets the proof, and the equations of this module say what the outcome of
each reader is in terms of the outcomes of the readers it calls. All later statements about reading
rest on these equations, so that no proof has to look at lengths.
-/

namespace Tradeoff

/-- The tokens of lexemes. -/
def tokens (lexemes : List Lexeme) : List Token := lexemes.map Lexeme.token

@[simp] theorem tokens_nil : tokens [] = [] := rfl

@[simp] theorem tokens_cons (lexeme : Lexeme) (lexemes : List Lexeme) :
    tokens (lexeme :: lexemes) = lexeme.token :: tokens lexemes := rfl

theorem tokens_append (lexemes lexemes' : List Lexeme) :
    tokens (lexemes ++ lexemes') = tokens lexemes ++ tokens lexemes' := List.map_append

/-- Lexemes whose tokens start with a token start with a lexeme of it. -/
theorem exists_of_tokens_eq_cons {lexemes : List Lexeme} {token : Token} {rest : List Token}
    (h : tokens lexemes = token :: rest) :
    ∃ offset tail, lexemes = ⟨token, offset⟩ :: tail ∧ tokens tail = rest := by
  cases lexemes with
  | nil => cases h
  | cons lexeme tail =>
    obtain ⟨token', offset⟩ := lexeme
    obtain ⟨rfl, htail⟩ := List.cons.inj h
    exact ⟨offset, tail, rfl, htail⟩

/-! ### Outcomes -/

/-- What a reader found and what it left. -/
def outcome {bound : Nat} {α : Type} :
    Except ParseError (Parsed bound α) → Except ParseError (α × List Lexeme)
  | .error e => .error e
  | .ok parsed => .ok (parsed.value, parsed.rest)

/-- The outcome of reading something and going on with it. -/
def thenRead {α β : Type} (first : Except ParseError (α × List Lexeme))
    (next : α → List Lexeme → Except ParseError (β × List Lexeme)) :
    Except ParseError (β × List Lexeme) :=
  match first with
  | .error e => .error e
  | .ok (value, rest) => next value rest

@[simp] theorem thenRead_error {α β : Type} (e : ParseError)
    (next : α → List Lexeme → Except ParseError (β × List Lexeme)) :
    thenRead (.error e) next = .error e := rfl

@[simp] theorem thenRead_ok {α β : Type} (value : α) (rest : List Lexeme)
    (next : α → List Lexeme → Except ParseError (β × List Lexeme)) :
    thenRead (.ok (value, rest)) next = next value rest := rfl

/-- What comes after is read only when something was read before. -/
theorem thenRead_eq_ok {α β : Type} {first : Except ParseError (α × List Lexeme)}
    {next : α → List Lexeme → Except ParseError (β × List Lexeme)} {result : β × List Lexeme}
    (h : thenRead first next = .ok result) :
    ∃ value rest, first = .ok (value, rest) ∧ next value rest = .ok result := by
  match first with
  | .error _ => cases h
  | .ok (value, rest) => exact ⟨value, rest, rfl, h⟩

/-- An error is from the part before or from the part after. -/
theorem thenRead_eq_error {α β : Type} {first : Except ParseError (α × List Lexeme)}
    {next : α → List Lexeme → Except ParseError (β × List Lexeme)} {e : ParseError}
    (h : thenRead first next = .error e) :
    first = .error e ∨ ∃ value rest, first = .ok (value, rest) ∧ next value rest = .error e := by
  match first with
  | .error _ =>
    obtain rfl := Except.error.inj h
    exact .inl rfl
  | .ok (value, rest) => exact .inr ⟨value, rest, rfl, h⟩

/-- Reading in three parts can be put together in two ways. -/
theorem thenRead_assoc {α β γ : Type} (first : Except ParseError (α × List Lexeme))
    (next : α → List Lexeme → Except ParseError (β × List Lexeme))
    (last : β → List Lexeme → Except ParseError (γ × List Lexeme)) :
    thenRead (thenRead first next) last =
      thenRead first fun value rest ↦ thenRead (next value rest) last := by
  match first with
  | .error _ => rfl
  | .ok (_, _) => rfl

section Equations

variable {limit stop : Nat} {read : Reader}

/-- With no levels left, an expression is too deep wherever it starts. -/
theorem outcome_expression_zero (layer : Layer) (lexemes : List Lexeme) :
    outcome (expression limit stop 0 layer lexemes) =
      .error ⟨.tooDeep limit, nextOffset stop lexemes⟩ := rfl

/-- An expression is an operand and the connectives that go on with it, each with one level less. -/
theorem outcome_expression_succ (levels : Nat) (layer : Layer) (lexemes : List Lexeme) :
    outcome (expression limit stop (levels + 1) layer lexemes) =
      thenRead (outcome (operand stop (expression limit stop levels) lexemes)) fun lhs rest ↦
        outcome (chain (expression limit stop levels) layer lhs rest) := by
  simp only [expression]
  rcases operand stop (expression limit stop levels) lexemes with e | ⟨lhs, rest, h⟩
  · rfl
  · simp only [outcome, thenRead_ok]
    rcases chain (expression limit stop levels) layer lhs rest with e | ⟨e, rest', h'⟩ <;> rfl

@[simp] theorem outcome_chain_nil (layer : Layer) (lhs : Expr) :
    outcome (chain read layer lhs []) = .ok (lhs, []) := by
  rw [chain]
  rfl

/-- A connective of the layer or a tighter one is taken with its right operand. -/
theorem outcome_chain_take {layer : Layer} {lexeme : Lexeme} {connective : Connective}
    (hnext : Connective.ofToken? lexeme.token = some connective) (hlayer : layer ≤ connective.layer)
    (lhs : Expr) (rest : List Lexeme) :
    outcome (chain read layer lhs (lexeme :: rest)) =
      thenRead (outcome (read connective.right rest)) fun rhs rest' ↦
        outcome (chain read layer (connective.join lhs rhs) rest') := by
  rw [chain]
  simp only [hnext, hlayer, if_true]
  rcases read connective.right rest with e | ⟨rhs, rest', h⟩
  · rfl
  · simp only [outcome, thenRead_ok]
    rcases chain read layer (connective.join lhs rhs) rest' with e | ⟨e, rest'', h'⟩ <;> rfl

/-- Anything else is left. -/
theorem outcome_chain_leave {layer : Layer} {lexeme : Lexeme}
    (hnext : ∀ connective, Connective.ofToken? lexeme.token = some connective →
      ¬ layer ≤ connective.layer)
    (lhs : Expr) (rest : List Lexeme) :
    outcome (chain read layer lhs (lexeme :: rest)) = .ok (lhs, lexeme :: rest) := by
  rw [chain]
  cases htoken : Connective.ofToken? lexeme.token with
  | none => rfl
  | some connective => simp [hnext connective htoken, outcome]

@[simp] theorem outcome_operand_number (value : Float) (offset : Nat) (rest : List Lexeme) :
    outcome (operand stop read (⟨.number value, offset⟩ :: rest)) = .ok (.number value, rest) := rfl

/-- A name that no parenthesis follows is a symbol or a constant. -/
theorem outcome_operand_name {rest : List Lexeme} (h : (tokens rest).head? ≠ some .opening)
    (name : String) (offset : Nat) :
    outcome (operand stop read (⟨.identifier name, offset⟩ :: rest)) =
      .ok (.ofIdentifier name, rest) := by
  cases rest with
  | nil => rfl
  | cons next rest =>
    have hnext : next.token ≠ .opening := by simpa using h
    simp [operand, outcome, hnext]

/-- A name that a parenthesis follows is called. -/
theorem outcome_operand_call (name : String) (offset opened : Nat) (rest : List Lexeme) :
    outcome (operand stop read (⟨.identifier name, offset⟩ :: ⟨.opening, opened⟩ :: rest)) =
      outcome (call read name offset opened rest) := by
  simp only [operand, if_true]
  rcases call read name offset opened rest with e | ⟨e, rest', h⟩ <;> rfl

/-- A minus sign is followed by a signed expression. -/
theorem outcome_operand_minus (offset : Nat) (rest : List Lexeme) :
    outcome (operand stop read (⟨.minus, offset⟩ :: rest)) =
      thenRead (outcome (read .signed rest)) fun e rest' ↦ .ok (e.signed, rest') := by
  simp only [operand]
  rcases read .signed rest with e | ⟨e, rest', h⟩ <;> rfl

theorem outcome_operand_opening (offset : Nat) (rest : List Lexeme) :
    outcome (operand stop read (⟨.opening, offset⟩ :: rest)) =
      outcome (group read offset rest) := by
  simp only [operand]
  rcases group read offset rest with e | ⟨e, rest', h⟩ <;> rfl

/-- What follows the content of a group: its closing parenthesis. -/
def close (opened : Nat) (e : Expr) : List Lexeme → Except ParseError (Expr × List Lexeme)
  | [] => .error ⟨.unmatchedParenthesis, opened⟩
  | lexeme :: rest =>
    if lexeme.token = .closing then .ok (e, rest) else .error ⟨.expected .closing, lexeme.offset⟩

/-- A group is a sum and the parenthesis that closes it. -/
theorem outcome_group (opened : Nat) (lexemes : List Lexeme) :
    outcome (group read opened lexemes) =
      thenRead (outcome (read .sum lexemes)) (close opened) := by
  unfold group
  rcases read .sum lexemes with e | ⟨e, _ | ⟨lexeme, rest⟩, h⟩
  · rfl
  · rfl
  · by_cases h : lexeme.token = .closing <;> simp [outcome, close, h]

/-- What follows an argument of a call: the closing parenthesis, or a comma and more arguments. -/
def closeOrMore (read : Reader) (opened : Nat) (arg : Expr) :
    List Lexeme → Except ParseError (List Expr × List Lexeme)
  | [] => .error ⟨.unmatchedParenthesis, opened⟩
  | lexeme :: rest =>
    if lexeme.token = .closing then .ok ([arg], rest)
    else if lexeme.token = .comma then
      thenRead (outcome (arguments read opened rest)) fun args rest' ↦ .ok (arg :: args, rest')
    else .error ⟨.expected .commaOrClosing, lexeme.offset⟩

/-- Arguments are a sum, and then a comma and more of them or the closing parenthesis. -/
theorem outcome_arguments (opened : Nat) (lexemes : List Lexeme) :
    outcome (arguments read opened lexemes) =
      thenRead (outcome (read .sum lexemes)) (closeOrMore read opened) := by
  rw [arguments]
  rcases read .sum lexemes with e | ⟨arg, _ | ⟨lexeme, rest⟩, h⟩
  · rfl
  · rfl
  · by_cases hclosing : lexeme.token = .closing
    · simp [outcome, closeOrMore, hclosing]
    · by_cases hcomma : lexeme.token = .comma
      · simp only [outcome, thenRead_ok, closeOrMore, hcomma, if_true]
        rcases arguments read opened rest with e | ⟨args, rest', h'⟩ <;> rfl
      · simp [outcome, closeOrMore, hclosing, hcomma]

/-- What is made of the arguments of a call. -/
def applyCall (name : String) (named : Nat) (args : List Expr) (rest : List Lexeme) :
    Except ParseError (Expr × List Lexeme) :=
  match Expr.call? name args with
  | .error e => .error ⟨.malformed e, named⟩
  | .ok e => .ok (e, rest)

/-- A call is its arguments, counted when they have been read. -/
theorem outcome_call (name : String) (named opened : Nat) (lexemes : List Lexeme) :
    outcome (call read name named opened lexemes) =
      thenRead (outcome (argumentList read opened lexemes)) (applyCall name named) := by
  unfold call
  rcases argumentList read opened lexemes with e | ⟨args, rest, h⟩
  · rfl
  · simp only [outcome, thenRead_ok, applyCall]
    rcases Expr.call? name args with e | e <;> rfl

/-- A call has arguments unless its parenthesis is closed at once. -/
theorem argumentList_of_head?_ne {lexemes : List Lexeme} (opened : Nat)
    (h : (tokens lexemes).head? ≠ some .closing) :
    argumentList read opened lexemes = arguments read opened lexemes := by
  cases lexemes with
  | nil => rfl
  | cons lexeme rest =>
    have hne : lexeme.token ≠ .closing := by simpa using h
    simp [argumentList, hne]

end Equations

end Tradeoff
