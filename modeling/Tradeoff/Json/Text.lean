import Tradeoff.Json.Basic
import Tradeoff.Decimal.Text

/-!
# The text of JSON values

`Json.text` writes a value in compact form, as messages quote it: no blanks, fields in key order,
and only the escapes that a string needs. `Json.read?` reads a text that holds one value.
-/

namespace Tradeoff.Json

/-! ### Writing -/

/-- The digits of a natural number below 65536 in base sixteen, four of them. -/
def hexDigits (n : Nat) : List Char :=
  [n / 4096 % 16, n / 256 % 16, n / 16 % 16, n % 16].map Nat.digitChar

/-- How a character stands in a JSON string. Control characters without a short escape are named by
their number; everything else, ASCII or not, stands for itself. -/
def escape (c : Char) : List Char :=
  match c with
  | '"' => ['\\', '"']
  | '\\' => ['\\', '\\']
  | '\n' => ['\\', 'n']
  | '\r' => ['\\', 'r']
  | '\t' => ['\\', 't']
  | '\x08' => ['\\', 'b']
  | '\x0c' => ['\\', 'f']
  | c => if c.toNat < 32 then '\\' :: 'u' :: hexDigits c.toNat else [c]

/-- A string in quotes. -/
def quoted (s : String) : String :=
  String.ofList ('"' :: (s.toList.flatMap escape ++ ['"']))

/-- The text of a number: an integer by its digits, a float in its shortest form. -/
def numberText : JsonNumber → String
  | .integer n => toString n
  | .float x => NumberStyle.json.write x

mutual

/-- The compact text of a value. -/
def text : Json → String
  | .null => "null"
  | .bool b => if b then "true" else "false"
  | .number n => numberText n
  | .string s => quoted s
  | .array items => "[" ++ ",".intercalate (texts items) ++ "]"
  | .object fields => "\x7b" ++ ",".intercalate (fieldTexts fields) ++ "\x7d"

/-- The texts of the items of an array. -/
def texts : List Json → List String
  | [] => []
  | item :: items => text item :: texts items

/-- The texts of the fields of an object. -/
def fieldTexts : List (String × Json) → List String
  | [] => []
  | (key, value) :: fields => (quoted key ++ ":" ++ text value) :: fieldTexts fields

end

/-! ### Reading -/

/-- Drops the blanks that may stand between the parts of a value. -/
def skipBlanks (cs : List Char) : List Char :=
  cs.dropWhile fun c ↦ c = ' ' || c = '\n' || c = '\t' || c = '\r'

/-- The value of a digit in base sixteen. -/
def hexValue? (c : Char) : Option Nat :=
  if c.isDigit then some (c.toNat - '0'.toNat)
  else if 'a' ≤ c && c ≤ 'f' then some (c.toNat - 'a'.toNat + 10)
  else if 'A' ≤ c && c ≤ 'F' then some (c.toNat - 'A'.toNat + 10)
  else none

/-- The number that four digits in base sixteen name, and what follows them. -/
def readUnit? : List Char → Option (Nat × List Char)
  | a :: b :: c :: d :: cs => do
    let a ← hexValue? a
    let b ← hexValue? b
    let c ← hexValue? c
    let d ← hexValue? d
    return (((a * 16 + b) * 16 + c) * 16 + d, cs)
  | _ => none

/-- The character that a numbered escape names, and what follows it. A character beyond the first
65536 is named by a pair of escapes; half a pair names nothing. -/
def readNumbered? (cs : List Char) : Option (Char × List Char) := do
  let (unit, rest) ← readUnit? cs
  if unit < 0xd800 || 0xdfff < unit then return (Char.ofNat unit, rest)
  match rest with
  | '\\' :: 'u' :: rest =>
    let (low, rest) ← readUnit? rest
    if unit < 0xdc00 && 0xdc00 ≤ low && low ≤ 0xdfff then
      return (Char.ofNat (0x10000 + (unit - 0xd800) * 0x400 + (low - 0xdc00)), rest)
    else none
  | _ => none

/-- The rest of a string after its opening quote, and what follows its closing one. -/
def readChars? : Nat → List Char → Option (List Char × List Char)
  | 0, _ => none
  | _, [] => none
  | _ + 1, '"' :: cs => some ([], cs)
  | fuel + 1, '\\' :: 'u' :: cs => do
    let (c, rest) ← readNumbered? cs
    let (chars, rest) ← readChars? fuel rest
    return (c :: chars, rest)
  | fuel + 1, '\\' :: c :: cs => do
    let c ← match c with
      | '"' => some '"'
      | '\\' => some '\\'
      | '/' => some '/'
      | 'b' => some '\x08'
      | 'f' => some '\x0c'
      | 'n' => some '\n'
      | 'r' => some '\r'
      | 't' => some '\t'
      | _ => none
    let (chars, rest) ← readChars? fuel cs
    return (c :: chars, rest)
  | fuel + 1, c :: cs => do
    if c.toNat < 32 then none
    let (chars, rest) ← readChars? fuel cs
    return (c :: chars, rest)

/-- The number that a numeral is, after a minus sign or not. Integers that fit 64 bits stay
integers; a number too large for a double is none. -/
def numberOf? (negative : Bool) (n : Numeral) : Option JsonNumber := do
  if n.whole.isEmpty || (n.whole.head? = some '0' && n.whole.length ≠ 1) then none
  if n.fraction.length = 1 then none
  let d ← n.decimal?
  let magnitude := d.toFloat
  if !magnitude.isFinite then none
  if n.fraction.isEmpty && n.exponent.isEmpty then
    if !negative && d.digits < Nat.pow 2 64 then return .integer d.digits
    if negative && 0 < d.digits && d.digits ≤ Nat.pow 2 63 then return .integer (-d.digits)
  return .float (if negative then -magnitude else magnitude)

/-- The number at the start of `cs`, and what follows it. -/
def readNumber? (negative : Bool) (cs : List Char) : Option (Json × List Char) := do
  let n := Numeral.scan cs
  let number ← numberOf? negative n
  return (.number number, cs.drop n.text.length)

mutual

/-- The value at the start of `cs`, and what follows it. The fuel is spent once a call; a text never
needs more than its length. -/
def readValue? : Nat → List Char → Option (Json × List Char)
  | 0, _ => none
  | fuel + 1, cs =>
    match skipBlanks cs with
    | 'n' :: 'u' :: 'l' :: 'l' :: cs => some (.null, cs)
    | 't' :: 'r' :: 'u' :: 'e' :: cs => some (.bool true, cs)
    | 'f' :: 'a' :: 'l' :: 's' :: 'e' :: cs => some (.bool false, cs)
    | '"' :: cs => do
      let (chars, rest) ← readChars? (cs.length + 1) cs
      return (.string (String.ofList chars), rest)
    | '[' :: cs =>
      match skipBlanks cs with
      | ']' :: cs => some (.array [], cs)
      | cs => do
        let (items, rest) ← readItems? fuel cs
        return (.array items, rest)
    | '\x7b' :: cs =>
      match skipBlanks cs with
      | '\x7d' :: cs => some (.object [], cs)
      | cs => do
        let (fields, rest) ← readFields? fuel cs
        return (.ofFields fields, rest)
    | '-' :: cs => readNumber? true cs
    | cs => readNumber? false cs

/-- The items of an array up to its closing bracket, and what follows it. -/
def readItems? : Nat → List Char → Option (List Json × List Char)
  | 0, _ => none
  | fuel + 1, cs => do
    let (item, rest) ← readValue? fuel cs
    match skipBlanks rest with
    | ',' :: rest =>
      let (items, rest) ← readItems? fuel rest
      return (item :: items, rest)
    | ']' :: rest => return ([item], rest)
    | _ => none

/-- The fields of an object up to its closing brace, and what follows it. -/
def readFields? : Nat → List Char → Option (List (String × Json) × List Char)
  | 0, _ => none
  | fuel + 1, cs => do
    let '"' :: cs := skipBlanks cs | none
    let (key, rest) ← readChars? (cs.length + 1) cs
    let ':' :: rest := skipBlanks rest | none
    let (value, rest) ← readValue? fuel rest
    match skipBlanks rest with
    | ',' :: rest =>
      let (fields, rest) ← readFields? fuel rest
      return ((String.ofList key, value) :: fields, rest)
    | '\x7d' :: rest => return ([(String.ofList key, value)], rest)
    | _ => none

end

/-- Reads a text that holds one JSON value. -/
def read? (s : String) : Option Json := do
  let cs := s.toList
  let (value, rest) ← readValue? (cs.length + 1) cs
  if (skipBlanks rest).isEmpty then return value else none

end Tradeoff.Json
