import Tradeoff.Decimal.Text

/-!
# Tokens of formulas

A formula is text over a small set of tokens: numbers, identifiers, five signs, parentheses and
commas. Outside numbers and identifiers only ASCII blanks may stand between tokens.

`isIdentifier` says which names can be symbols of a problem: those that stand for themselves in a
formula.
-/

namespace Tradeoff

/-- A token of a formula. -/
inductive Token where
  /-- An unsigned number. -/
  | number (value : Float)
  /-- A name. -/
  | identifier (name : String)
  /-- The sign `+`. -/
  | plus
  /-- The sign `-`, between operands or before one. -/
  | minus
  /-- The sign `*`. -/
  | star
  /-- The sign `/`. -/
  | slash
  /-- The sign `^`. -/
  | caret
  /-- An opening parenthesis. -/
  | opening
  /-- A closing parenthesis. -/
  | closing
  /-- A comma between arguments. -/
  | comma
deriving DecidableEq

namespace Token

/-- The token that is a single character. -/
def ofChar? : Char → Option Token
  | '+' => some plus
  | '-' => some minus
  | '*' => some star
  | '/' => some slash
  | '^' => some caret
  | '(' => some opening
  | ')' => some closing
  | ',' => some comma
  | _ => none

/-- The text of a token. -/
def text : Token → String
  | number value => NumberStyle.plain.write value
  | identifier name => name
  | plus => "+"
  | minus => "-"
  | star => "*"
  | slash => "/"
  | caret => "^"
  | opening => "("
  | closing => ")"
  | comma => ","

end Token

/-- Whether the character separates tokens and is otherwise skipped: space, tabulator, line feed,
form feed or carriage return. -/
def isBlank (c : Char) : Bool :=
  c = ' ' || c = '\t' || c = '\n' || c = '\x0c' || c = '\r'

/-- Whether an identifier may start with the character: an ASCII letter or an underscore. -/
def isIdentifierStart (c : Char) : Bool := c.isAlpha || c = '_'

/-- Whether the character may continue an identifier. -/
def isIdentifierRest (c : Char) : Bool := c.isAlphanum || c = '_'

theorem isIdentifierRest_of_isIdentifierStart {c : Char} (h : isIdentifierStart c) :
    isIdentifierRest c := by
  obtain halpha | rfl : c.isAlpha ∨ c = '_' := by simpa [isIdentifierStart] using h
  · simp [isIdentifierRest, Char.isAlphanum, halpha]
  · rfl

/-- Whether the name is one identifier. The two truth values are no identifiers. -/
def isIdentifier (name : String) : Bool :=
  match name.toList with
  | [] => false
  | c :: cs =>
    isIdentifierStart c && cs.all isIdentifierRest && name ≠ "true" && name ≠ "false"

end Tradeoff
