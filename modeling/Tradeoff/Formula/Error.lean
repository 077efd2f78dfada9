import Tradeoff.Expr.Basic

/-!
# What can be wrong with a formula

An error of a formula is a cause and a place. The place is an offset into the UTF-8 bytes of the
formula; an error at the end of the text has the number of its bytes.
-/

namespace Tradeoff

/-- What had to follow a complete expression. -/
inductive Expected where
  /-- A closing parenthesis. -/
  | closing
  /-- A comma or a closing parenthesis. -/
  | commaOrClosing
deriving DecidableEq

/-- The expected tokens in words. -/
def Expected.text : Expected → String
  | closing => "`)`"
  | commaOrClosing => "`,` or `)`"

/-- What is wrong with a formula. -/
inductive ParseCause where
  /-- A character that starts no token. -/
  | unexpectedCharacter (c : Char)
  /-- The characters of a number without a digit before its exponent. -/
  | invalidNumber (text : String)
  /-- A parenthesis without its partner. -/
  | unmatchedParenthesis
  /-- Something after a complete expression. -/
  | trailingInput
  /-- No operand where one has to stand. -/
  | missingOperand
  /-- Another token than the expected ones. -/
  | expected (tokens : Expected)
  /-- Operands nested more deeply than the limit. -/
  | tooDeep (limit : Nat)
  /-- A call that builds no expression. -/
  | malformed (error : MalformedExpr)

/-- The message of the cause. -/
def ParseCause.message : ParseCause → String
  | unexpectedCharacter c => "unexpected character `" ++ String.singleton c ++ "`"
  | invalidNumber text => "invalid number `" ++ text ++ "`"
  | unmatchedParenthesis => "unmatched parenthesis"
  | trailingInput => "unexpected input after a complete expression"
  | missingOperand => "missing operand"
  | expected tokens => "expected " ++ tokens.text
  | tooDeep limit => "expression nests deeper than " ++ toString limit ++ " levels"
  | malformed error => error.message

/-- An error of a formula and where it is. -/
structure ParseError where
  /-- What is wrong. -/
  cause : ParseCause
  /-- The offset in bytes. -/
  offset : Nat

/-- The message of the error. -/
def ParseError.message (e : ParseError) : String :=
  e.cause.message ++ " at offset " ++ toString e.offset

end Tradeoff
