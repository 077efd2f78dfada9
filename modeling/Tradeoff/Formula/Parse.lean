import Tradeoff.Formula.Layer
import Tradeoff.Formula.Scan

/-!
# From tokens to expressions

`parse` reads a formula. It works by layers: reading at a layer takes one operand and then goes on
as long as a connective of that layer or a tighter one follows, reading each right operand at the
layer the connective asks for.

## Why it ends

Two quantities bound the work. Reading an operand inside another one (after a sign or a connective,
in parentheses, as an argument) takes one of finitely many levels, of which `expression` has the
number left as its recursive argument; that is how the limit on nesting is kept. Within one level
only lexemes are used up: every reader returns the rest with a proof that it is shorter.
-/

namespace Tradeoff

/-- The greatest number of levels that operands of a formula may nest. -/
def nestingLimit : Nat := 256

/-- What a reader returns: a value and the lexemes left, fewer than `bound`. -/
structure Parsed (bound : Nat) (α : Type) where
  /-- What was read. -/
  value : α
  /-- The lexemes that follow it. -/
  rest : List Lexeme
  /-- Something was used up. -/
  shorter : rest.length < bound

/-- A reader of expressions at any layer. -/
abbrev Reader : Type :=
  Layer → (lexemes : List Lexeme) → Except ParseError (Parsed lexemes.length Expr)

/-- Where the next lexeme starts, or else the end of the formula. -/
def nextOffset (stop : Nat) : List Lexeme → Nat
  | [] => stop
  | lexeme :: _ => lexeme.offset

/-- The arguments of a call up to its closing parenthesis, of which there is at least one. The
parenthesis that has to be closed is the one at `opened`. -/
def arguments (read : Reader) (opened : Nat) (lexemes : List Lexeme) :
    Except ParseError (Parsed lexemes.length (List Expr)) :=
  match read .sum lexemes with
  | .error e => .error e
  | .ok ⟨_, [], _⟩ => .error ⟨.unmatchedParenthesis, opened⟩
  | .ok ⟨arg, lexeme :: rest, h⟩ =>
    if lexeme.token = .closing then .ok ⟨[arg], rest, Nat.lt_of_succ_lt h⟩
    else if lexeme.token = .comma then
      match arguments read opened rest with
      | .error e => .error e
      | .ok ⟨args, rest', h'⟩ => .ok ⟨arg :: args, rest', Nat.lt_trans h' (Nat.lt_of_succ_lt h)⟩
    else .error ⟨.expected .commaOrClosing, lexeme.offset⟩
termination_by lexemes.length
decreasing_by exact Nat.lt_of_succ_lt h

/-- The arguments of a call after its opening parenthesis, of which there may be none. -/
def argumentList (read : Reader) (opened : Nat) (lexemes : List Lexeme) :
    Except ParseError (Parsed lexemes.length (List Expr)) :=
  match lexemes with
  | [] => arguments read opened []
  | lexeme :: rest =>
    if lexeme.token = .closing then .ok ⟨[], rest, Nat.lt_succ_self _⟩
    else arguments read opened (lexeme :: rest)

/-- A call after its opening parenthesis. What is wrong with the call as a whole is reported at its
name. -/
def call (read : Reader) (name : String) (named opened : Nat) (lexemes : List Lexeme) :
    Except ParseError (Parsed lexemes.length Expr) :=
  match argumentList read opened lexemes with
  | .error e => .error e
  | .ok ⟨args, rest, h⟩ =>
    match Expr.call? name args with
    | .error e => .error ⟨.malformed e, named⟩
    | .ok e => .ok ⟨e, rest, h⟩

/-- A group after its opening parenthesis, at `opened`. -/
def group (read : Reader) (opened : Nat) (lexemes : List Lexeme) :
    Except ParseError (Parsed lexemes.length Expr) :=
  match read .sum lexemes with
  | .error e => .error e
  | .ok ⟨_, [], _⟩ => .error ⟨.unmatchedParenthesis, opened⟩
  | .ok ⟨e, lexeme :: rest, h⟩ =>
    if lexeme.token = .closing then .ok ⟨e, rest, Nat.lt_of_succ_lt h⟩
    else .error ⟨.expected .closing, lexeme.offset⟩

/-- One operand: a number, a name, a call, a group, or a minus sign and a signed operand. -/
def operand (stop : Nat) (read : Reader) (lexemes : List Lexeme) :
    Except ParseError (Parsed lexemes.length Expr) :=
  match lexemes with
  | [] => .error ⟨.missingOperand, stop⟩
  | ⟨token, offset⟩ :: rest =>
    match token with
    | .number value => .ok ⟨.number value, rest, Nat.lt_succ_self _⟩
    | .identifier name =>
      match rest with
      | [] => .ok ⟨.ofIdentifier name, [], Nat.lt_succ_self _⟩
      | next :: rest =>
        if next.token = .opening then
          match call read name offset next.offset rest with
          | .error e => .error e
          | .ok ⟨e, rest', h⟩ => .ok ⟨e, rest', Nat.lt_succ_of_lt (Nat.lt_succ_of_lt h)⟩
        else .ok ⟨.ofIdentifier name, next :: rest, Nat.lt_succ_self _⟩
    | .minus =>
      match read .signed rest with
      | .error e => .error e
      | .ok ⟨e, rest', h⟩ => .ok ⟨e.signed, rest', Nat.lt_succ_of_lt h⟩
    | .opening =>
      match group read offset rest with
      | .error e => .error e
      | .ok ⟨e, rest', h⟩ => .ok ⟨e, rest', Nat.lt_succ_of_lt h⟩
    | _ => .error ⟨.missingOperand, offset⟩

/-- Goes on from the operand `lhs` as long as a connective of the layer or a tighter one follows. -/
def chain (read : Reader) (layer : Layer) (lhs : Expr) (lexemes : List Lexeme) :
    Except ParseError (Parsed (lexemes.length + 1) Expr) :=
  match lexemes with
  | [] => .ok ⟨lhs, [], Nat.lt_succ_self _⟩
  | lexeme :: rest =>
    match Connective.ofToken? lexeme.token with
    | none => .ok ⟨lhs, lexeme :: rest, Nat.lt_succ_self _⟩
    | some connective =>
      if layer ≤ connective.layer then
        match read connective.right rest with
        | .error e => .error e
        | .ok ⟨rhs, rest', h⟩ =>
          match chain read layer (connective.join lhs rhs) rest' with
          | .error e => .error e
          | .ok ⟨e, rest'', h'⟩ =>
            .ok ⟨e, rest'', Nat.lt_of_lt_of_le h' (Nat.le_succ_of_le (Nat.le_succ_of_le h))⟩
      else .ok ⟨lhs, lexeme :: rest, Nat.lt_succ_self _⟩
termination_by lexemes.length
decreasing_by exact Nat.lt_succ_of_lt h

/-- Reads an expression at a layer, with so many levels left. -/
def expression (limit stop : Nat) : Nat → Reader
  | 0 => fun _ lexemes ↦ .error ⟨.tooDeep limit, nextOffset stop lexemes⟩
  | levels + 1 => fun layer lexemes ↦
    match operand stop (expression limit stop levels) lexemes with
    | .error e => .error e
    | .ok ⟨lhs, rest, h⟩ =>
      match chain (expression limit stop levels) layer lhs rest with
      | .error e => .error e
      | .ok ⟨e, rest', h'⟩ => .ok ⟨e, rest', Nat.lt_of_lt_of_le h' h⟩

/-- The expression that all the lexemes spell. After a complete expression a closing parenthesis
lacks its partner, and anything else is too much. -/
def parseLexemes (limit stop : Nat) (lexemes : List Lexeme) : Except ParseError Expr :=
  match expression limit stop limit .sum lexemes with
  | .error e => .error e
  | .ok ⟨e, [], _⟩ => .ok e
  | .ok ⟨_, lexeme :: _, _⟩ =>
    if lexeme.token = .closing then .error ⟨.unmatchedParenthesis, lexeme.offset⟩
    else .error ⟨.trailingInput, lexeme.offset⟩

/-- Reads a formula whose operands nest at most `limit` levels. -/
def parseWithin (limit : Nat) (formula : String) : Except ParseError Expr :=
  match scan formula with
  | .error e => .error e
  | .ok lexemes => parseLexemes limit (byteLength formula.toList) lexemes

/-- Reads a formula. -/
def parse (formula : String) : Except ParseError Expr := parseWithin nestingLimit formula

end Tradeoff
