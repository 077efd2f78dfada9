import Tradeoff.Formula.Layer

/-!
# From expressions to formulas

`Expr.text` prints an expression as a formula. Printing first gives the tokens, with the blanks that
go around each (`Expr.pieces`); the text is these in order. An operand is put in parentheses exactly
if its layer is looser than the place it stands in.

The printed form reads back to an equivalent expression if every operation has arguments that its
operator takes, every number is finite and every symbol is an identifier. Numbers that are not
finite are printed as names.
-/

namespace Tradeoff

/-- The blanks that go with a token. -/
inductive Spacing where
  /-- No blank. -/
  | tight
  /-- One blank after it. -/
  | after
  /-- One blank on either side. -/
  | around
deriving DecidableEq

/-- A token with its blanks. -/
structure Piece where
  /-- The token. -/
  token : Token
  /-- Its blanks. -/
  spacing : Spacing

/-- The text of a piece. -/
def Piece.text (p : Piece) : String :=
  match p.spacing with
  | .tight => p.token.text
  | .after => p.token.text ++ " "
  | .around => " " ++ p.token.text ++ " "

/-- The pieces of a number: its sign, if it has one, and its magnitude. -/
def numberPieces (x : Float) : List Piece :=
  let magnitude : Token :=
    if x.isNaN then .identifier "NaN" else if x.isInf then .identifier "inf" else .number x.abs
  if carriesMinus x then [⟨.minus, .tight⟩, ⟨magnitude, .tight⟩] else [⟨magnitude, .tight⟩]

/-- The pieces of an operand in a place of the layer `place`. -/
def inPlace (place : Layer) (operand : Expr) (pieces : List Piece) : List Piece :=
  if place ≤ operand.layer then pieces
  else ⟨.opening, .tight⟩ :: (pieces ++ [⟨.closing, .tight⟩])

namespace Expr

mutual

/-- The pieces of an expression. Where its operator has a sign and its arguments fit the sign, the
sign is used, and else the name of the operator. -/
def pieces : Expr → List Piece
  | .literal (.number x) => numberPieces x
  | .literal (.bool b) => [⟨.identifier (if b then "true" else "false"), .tight⟩]
  | .symbol name => [⟨.identifier name, .tight⟩]
  | .operation op args =>
    match op, args with
    | .add, first :: rest => inPlace .sum first (pieces first) ++ termPieces rest
    | .multiply, first :: rest => inPlace .product first (pieces first) ++ factorPieces rest
    | .divide, [lhs, rhs] =>
      inPlace .product lhs (pieces lhs) ++ ⟨.slash, .around⟩ :: inPlace .signed rhs (pieces rhs)
    | .negate, [arg] => ⟨.minus, .tight⟩ :: inPlace .signed arg (pieces arg)
    | .power, [base, exponent] =>
      inPlace .atom base (pieces base) ++
        ⟨.caret, .around⟩ :: inPlace .signed exponent (pieces exponent)
    | op, [] => [⟨.identifier op.name, .tight⟩, ⟨.opening, .tight⟩, ⟨.closing, .tight⟩]
    | op, first :: rest =>
      ⟨.identifier op.name, .tight⟩ :: ⟨.opening, .tight⟩ ::
        (pieces first ++ argumentPieces rest ++ [⟨.closing, .tight⟩])

/-- The pieces of the terms after the first. A negated term is subtracted. -/
def termPieces : List Expr → List Piece
  | [] => []
  | .operation .negate [arg] :: rest =>
    ⟨.minus, .around⟩ :: (inPlace .product arg (pieces arg) ++ termPieces rest)
  | arg :: rest => ⟨.plus, .around⟩ :: (inPlace .product arg (pieces arg) ++ termPieces rest)

/-- The pieces of the factors after the first. -/
def factorPieces : List Expr → List Piece
  | [] => []
  | arg :: rest => ⟨.star, .around⟩ :: (inPlace .signed arg (pieces arg) ++ factorPieces rest)

/-- The pieces of the arguments of a call after the first. -/
def argumentPieces : List Expr → List Piece
  | [] => []
  | arg :: rest => ⟨.comma, .after⟩ :: (pieces arg ++ argumentPieces rest)

end

/-- The formula of an expression. -/
def text (e : Expr) : String := String.join (e.pieces.map Piece.text)

end Expr

end Tradeoff
