import Tradeoff.Decimal.Shortest

/-!
# The text of a number

Writing a double is one function, `NumberStyle.write`, of a `NumberStyle`: the few decisions on
which notations differ. Two styles are used: `plain`, in formulas and messages, and `json`, in
quoted JSON values.

Reading starts from a `Numeral`, the longest beginning of a text that has the shape of a number. A
numeral keeps its characters, so nothing of the text is lost (`Numeral.text`), and denotes a decimal
unless it has no digit before its exponent (`Numeral.decimal?`).
-/

namespace Tradeoff

/-! ### Writing -/

/-- How numbers are written. -/
structure NumberStyle where
  /-- The exponents of the leading digit, from first to last, for which a number is written without
  an exponent; all of them if there is no such range. -/
  positional : Option (Int × Int)
  /-- What follows a whole number written without an exponent. -/
  wholeSuffix : String
  /-- Which of two equally close shortest decimals is written. -/
  tie : Tie

namespace NumberStyle

/-- Numbers in formulas and messages: never an exponent, and whole numbers have no point. -/
def plain : NumberStyle := ⟨none, "", .up⟩

/-- Numbers in JSON text: an exponent below a hundred thousandth and from ten thousand million
million on, and whole numbers keep a point. -/
def json : NumberStyle := ⟨some (-5, 15), ".0", .even⟩

/-- A decimal without an exponent: zeros are written up to the unit on either side. -/
def writePositional (style : NumberStyle) (d : Decimal) : String :=
  let digits := Nat.toDigits 10 d.digits
  if 0 ≤ d.exponent then
    String.ofList (digits ++ List.replicate d.exponent.toNat '0') ++ style.wholeSuffix
  else
    let places := d.exponent.natAbs
    let padded := List.replicate (places + 1 - digits.length) '0' ++ digits
    String.ofList (padded.take (padded.length - places)) ++ "." ++
      String.ofList (padded.drop (padded.length - places))

/-- The exponent of the leading digit of a decimal. -/
def leading (d : Decimal) : Int := d.exponent + Decimal.length d.digits - 1

/-- A decimal with an exponent: one digit, a point if more follow, and the exponent with its sign.
-/
def writeScientific (d : Decimal) : String :=
  let digits := Nat.toDigits 10 d.digits
  let rest := digits.drop 1
  let exponent := leading d
  String.ofList (digits.take 1) ++ (if rest.isEmpty then "" else "." ++ String.ofList rest) ++
    "e" ++ (if exponent < 0 then "-" else "+") ++ toString exponent.natAbs

/-- Whether a decimal is written without an exponent. -/
def isPositional (style : NumberStyle) (d : Decimal) : Bool :=
  match style.positional with
  | none => true
  | some (first, last) => first ≤ leading d && leading d ≤ last

/-- The text of a finite magnitude. -/
def writeDecimal (style : NumberStyle) (d : Decimal) : String :=
  if style.isPositional d then style.writePositional d else writeScientific d

/-- The text of a double. A negative sign is written, that of zero included; what is not a number
has no sign. -/
def write (style : NumberStyle) (x : Float) : String :=
  match DecimalForm.ofFloat style.tie x with
  | .nan => "NaN"
  | .infinity negative => if negative then "-inf" else "inf"
  | .finite negative d => (if negative then "-" else "") ++ style.writeDecimal d

end NumberStyle

/-! ### Reading -/

/-- The characters of a number: digits, then possibly a point and more digits, then possibly an
exponent. Either run of digits may be empty. -/
structure Numeral where
  /-- The digits before the point. -/
  whole : List Char
  /-- The point and the digits after it, or nothing. -/
  fraction : List Char
  /-- The exponent mark, the sign and the digits of the exponent, or nothing. -/
  exponent : List Char
deriving DecidableEq, Repr

namespace Numeral

/-- The characters of the numeral, in order. -/
def text (n : Numeral) : List Char := n.whole ++ n.fraction ++ n.exponent

/-- A point and the digits after it, if `cs` starts with a point. -/
def scanFraction : List Char → List Char
  | '.' :: cs => '.' :: cs.takeWhile Char.isDigit
  | _ => []

/-- The sign at the start of `cs`, if there is one. -/
def scanSign : List Char → List Char
  | '+' :: _ => ['+']
  | '-' :: _ => ['-']
  | _ => []

/-- Whether the character marks an exponent. -/
def isMark (c : Char) : Bool := c = 'e' || c = 'E'

/-- A whole exponent, if `cs` starts with one: without a digit there is none, and the mark is left
to what follows. -/
def scanExponent : List Char → List Char
  | [] => []
  | mark :: cs =>
    let sign := scanSign cs
    let digits := (cs.drop sign.length).takeWhile Char.isDigit
    if isMark mark && !digits.isEmpty then mark :: (sign ++ digits) else []

/-- The longest beginning of `cs` that has the shape of a number. -/
def scan (cs : List Char) : Numeral :=
  let whole := cs.takeWhile Char.isDigit
  let rest := cs.drop whole.length
  let fraction := scanFraction rest
  ⟨whole, fraction, scanExponent (rest.drop fraction.length)⟩

/-- The power of ten that the exponent names: its digits, negated after a minus sign. -/
def power (n : Numeral) : Int :=
  match n.exponent with
  | _ :: '-' :: digits => -(Nat.ofDigitChars 10 digits 0 : Int)
  | _ :: '+' :: digits => Nat.ofDigitChars 10 digits 0
  | _ :: digits => Nat.ofDigitChars 10 digits 0
  | [] => 0

/-- The decimal that the numeral denotes; none without a digit before the exponent. -/
def decimal? (n : Numeral) : Option Decimal :=
  let places := n.fraction.drop 1
  let digits := n.whole ++ places
  if digits.isEmpty then none
  else some ⟨Nat.ofDigitChars 10 digits 0, n.power - places.length⟩

end Numeral

/-- Reads a whole text as an unsigned number: the double nearest to the decimal it denotes. -/
def readNumber? (cs : List Char) : Option Float :=
  let n := Numeral.scan cs
  if n.text = cs then n.decimal?.map Decimal.toFloat else none

end Tradeoff
