import Tradeoff.Formula.Error
import Tradeoff.Formula.Token

/-!
# From text to tokens

`scan` splits a whole formula into lexemes before anything else happens to it, so that an error in a
token is found before any error in the order of tokens. Blanks are skipped; every other character
belongs to exactly one lexeme, and each lexeme is the longest that starts where it does.
-/

namespace Tradeoff

/-- A token and the offset in bytes where it starts. -/
structure Lexeme where
  /-- The token. -/
  token : Token
  /-- Where it starts. -/
  offset : Nat
deriving DecidableEq

/-- The number of UTF-8 bytes of the characters. -/
def byteLength (cs : List Char) : Nat := cs.foldr (fun c length ↦ c.utf8Size + length) 0

/-- The token at the start of `c :: cs`, with its characters. A number is as long as its shape
allows, whether or not it denotes anything; a lone point is no number at all. -/
def Token.read (c : Char) (cs : List Char) : Except ParseCause (Token × List Char) :=
  match Token.ofChar? c with
  | some token => .ok (token, [c])
  | none =>
    if c.isDigit || c = '.' then
      let numeral := Numeral.scan (c :: cs)
      match numeral.decimal? with
      | some d => .ok (.number d.toFloat, numeral.text)
      | none =>
        if numeral.text = ['.'] then .error (.unexpectedCharacter c)
        else .error (.invalidNumber (String.ofList numeral.text))
    else if isIdentifierStart c then
      let name := c :: cs.takeWhile isIdentifierRest
      .ok (.identifier (String.ofList name), name)
    else .error (.unexpectedCharacter c)

/-- The lexemes of `cs`, which starts at `offset`. -/
def scanFrom (cs : List Char) (offset : Nat) : Except ParseError (List Lexeme) :=
  match cs with
  | [] => .ok []
  | c :: cs =>
    if isBlank c then scanFrom cs (offset + 1)
    else
      match Token.read c cs with
      | .error cause => .error ⟨cause, offset⟩
      | .ok (token, chars) =>
        match scanFrom (cs.drop (chars.length - 1)) (offset + byteLength chars) with
        | .error e => .error e
        | .ok lexemes => .ok (⟨token, offset⟩ :: lexemes)
termination_by cs.length
decreasing_by
  · exact Nat.lt_succ_self _
  · rw [List.length_drop, List.length_cons]
    omega

/-- The lexemes of a formula. -/
def scan (formula : String) : Except ParseError (List Lexeme) := scanFrom formula.toList 0

end Tradeoff
