/-!
# JSON values

Problem descriptions and the array form of expressions are JSON values. A number remembers whether
it was written as an integer, because an integer and a float of the same value have different texts
and only an integer can be the dimension of a shape.
-/

namespace Tradeoff

/-- A JSON number. -/
inductive JsonNumber where
  /-- An integer of at most 64 bits, signed or not. -/
  | integer (n : Int)
  /-- Any other number, as the double nearest to it. -/
  | float (x : Float)
deriving DecidableEq

/-- The value of a number, rounded to the nearest double. -/
def JsonNumber.toFloat : JsonNumber → Float
  | .integer n => Float.ofInt n
  | .float x => x

/-- A JSON value. The fields of an object are kept in the order of their keys. -/
inductive Json where
  /-- The null value. -/
  | null
  /-- A boolean. -/
  | bool (value : Bool)
  /-- A number. -/
  | number (value : JsonNumber)
  /-- A string. -/
  | string (value : String)
  /-- An array. -/
  | array (items : List Json)
  /-- An object. -/
  | object (fields : List (String × Json))
deriving Inhabited

namespace Json

/-- A double as a JSON value: JSON has no number that is not finite, so such a one becomes null. -/
def ofFloat (x : Float) : Json :=
  if x.isFinite then .number (.float x) else .null

/-- A natural number as a JSON value. -/
def ofNat (n : Nat) : Json := .number (.integer n)

/-- Puts a field in its place in the order of the keys, in front of a field of the same key. -/
def insertField (key : String) (value : Json) : List (String × Json) → List (String × Json)
  | [] => [(key, value)]
  | field :: fields =>
    if key ≤ field.1 then (key, value) :: field :: fields
    else field :: insertField key value fields

/-- The object with the given fields. -/
def ofFields (fields : List (String × Json)) : Json :=
  .object (fields.foldr (fun field ↦ insertField field.1 field.2) [])

end Json

end Tradeoff
