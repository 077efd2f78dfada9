import Tradeoff.Problem.Description.Write

/-!
# Reading descriptions

A part of a description is an object with its fields or an array of their values.

The fields of an object are read in the order of their keys, whether they are needed or not, and the
first that cannot be read decides the error. That a needed field is missing shows only after that,
in the order in which a reader would look for them: name, symbol, the rest. Fields of unknown keys
are passed over.

The values in an array are read one after another, in the order in which the fields are declared
(`ItemReader`). The last ones may be missing if they are not needed, and none may be left over.

Reading a description gives a draft; a problem is read by building the draft.
-/

namespace Tradeoff

/-- Why a description could not be read. -/
inductive DescriptionError where
  /-- A value of another type than is needed. -/
  | wrongType
  /-- A value of the type that is needed, but not one of those that are allowed. -/
  | wrongValue
  /-- An array with too few or too many values. -/
  | wrongLength
  /-- A needed field is missing. -/
  | missingField (key : String)
  /-- No kind of constraints has the name. -/
  | unknownKind (name : String)
  /-- A value of a constant that is no literal. -/
  | noLiteral
  /-- An expression that could not be read. -/
  | source (error : SourceError)
  /-- A shape of several dimensions. -/
  | shape (error : UnsupportedShape)
  /-- Stored columns of different lengths. -/
  | samples (error : UnevenSamples)

/-- The message of the error. -/
def DescriptionError.message : DescriptionError → String
  | wrongType => "invalid type"
  | wrongValue => "invalid value"
  | wrongLength => "invalid length"
  | missingField key => "missing field `" ++ key ++ "`"
  | unknownKind name =>
    "unknown variant `" ++ name ++ "`, expected `" ++ ConstraintKind.atMost.name ++ "` or `" ++
      ConstraintKind.equal.name ++ "`"
  | noLiteral => "data did not match any variant of untagged enum Literal"
  | source error => error.message
  | shape error => error.message
  | samples error => error.message

/-- The result of reading a part of a description. -/
abbrev Reading (α : Type) := Except DescriptionError α

/-! ### What is described -/

/-- A decision variable as it is described, with the dimensions of its shape. -/
structure VariableDescription where
  /-- The name. -/
  name : String
  /-- The symbol. -/
  symbol : String
  /-- The dimensions; none of a scalar. -/
  dimensions : List Nat
  /-- The lower bound, if there is one. -/
  lower? : Option Float
  /-- The upper bound, if there is one. -/
  upper? : Option Float
  /-- The value to start from, if there is one. -/
  initial? : Option Float

/-- The decision variable that is described. -/
def VariableDescription.variable (v : VariableDescription) : Reading Variable :=
  match Shape.ofDimensions? v.dimensions with
  | none => .error (.shape ⟨v.symbol, v.dimensions⟩)
  | some shape => .ok ⟨v.name, v.symbol, shape, v.lower?, v.upper?, v.initial?⟩

/-- Stored samples as they are described. -/
structure SamplesDescription where
  /-- The values of the variables. -/
  decisions : SortedMap (Array Float)
  /-- The values of the objectives. -/
  values : SortedMap (Array Float)
  /-- Whether no sample is dominated by another. -/
  nonDominated : Bool

/-- The samples that are described. -/
def SamplesDescription.samples (s : SamplesDescription) : Reading StoredSamples :=
  match StoredSamples.ofColumns s.decisions s.values s.nonDominated with
  | .error e => .error (.samples e)
  | .ok samples => .ok samples

namespace Json

/-! ### Values -/

/-- Reads a text. -/
def readText : Json → Reading String
  | .string s => .ok s
  | _ => .error .wrongType

/-- Reads a truth value. -/
def readFlag : Json → Reading Bool
  | .bool b => .ok b
  | _ => .error .wrongType

/-- Reads a number. -/
def readFloat : Json → Reading Float
  | .number n => .ok n.toFloat
  | _ => .error .wrongType

/-- Reads a number that may be absent. -/
def readFloat? : Json → Reading (Option Float)
  | .null => .ok none
  | .number n => .ok (some n.toFloat)
  | _ => .error .wrongType

/-- Reads a dimension. -/
def readNat : Json → Reading Nat
  | .number (.integer (.ofNat n)) => .ok n
  | .number (.integer (.negSucc _)) => .error .wrongValue
  | _ => .error .wrongType

/-- Reads all values of a list, one after another. -/
def readAll {α : Type} (read : Json → Reading α) : List Json → Reading (List α)
  | [] => .ok []
  | item :: items => do
    let value ← read item
    let values ← readAll read items
    return value :: values

/-- Reads a list. -/
def readList {α : Type} (read : Json → Reading α) : Json → Reading (List α)
  | .array items => readAll read items
  | _ => .error .wrongType

/-- Reads the columns in the fields of an object, one after another. -/
def readEntries : List (String × Json) → Reading (List (String × Array Float))
  | [] => .ok []
  | field :: fields => do
    let column ← readList readFloat field.2
    let entries ← readEntries fields
    return (field.1, column.toArray) :: entries

/-- Reads columns by their symbols. -/
def readColumns : Json → Reading (SortedMap (Array Float))
  | .object fields => do
    let entries ← readEntries fields
    return .ofList entries
  | _ => .error .wrongType

/-- Reads an expression. -/
def readExpr (j : Json) : Reading Expr :=
  match Expr.ofSource? j with
  | .error e => .error (.source e)
  | .ok e => .ok e

/-- Reads an expression that may be absent. -/
def readExpr? : Json → Reading (Option Expr)
  | .null => .ok none
  | j => do
    let e ← readExpr j
    return some e

/-- Reads a literal. -/
def readLiteral : Json → Reading Literal
  | .number n => .ok (.number n.toFloat)
  | .bool b => .ok (.bool b)
  | _ => .error .noLiteral

/-- The kind of constraints of a name. -/
def kindOfName (name : String) : Reading ConstraintKind :=
  if name = ConstraintKind.atMost.name then .ok .atMost
  else if name = ConstraintKind.equal.name then .ok .equal
  else .error (.unknownKind name)

/-- Reads a kind of constraints: its name, or an object with the name as its only key and null for
its value. -/
def readKind : Json → Reading ConstraintKind
  | .string name => kindOfName name
  | .object [(name, value)] => do
    let kind ← kindOfName name
    match value with
    | .null => return kind
    | _ => .error .wrongType
  | .object _ => .error .wrongValue
  | _ => .error .wrongType

/-! ### Fields of an object -/

section Parts

variable {α : Type}

/-- Reads the field of a key, if the object has it. -/
def readField? (fields : List (String × Json)) (key : String) (read : Json → Reading α) :
    Reading (Option α) :=
  match fields.lookup key with
  | none => .ok none
  | some value => do
    let value ← read value
    return some value

/-- The value of a needed field. -/
def require (key : String) : Option α → Reading α
  | none => .error (.missingField key)
  | some value => .ok value

/-! ### Items of an array -/

/-- Reads from the front of a list, and leaves the items that follow. -/
abbrev ItemReader (α : Type) := StateT (List Json) Reading α

/-- Reads an item that is needed. -/
def item (read : Json → Reading α) : ItemReader α := fun items ↦
  match items with
  | [] => .error .wrongLength
  | first :: items => do
    let value ← read first
    return (value, items)

/-- Reads an item that has a default. -/
def itemOr (default : α) (read : Json → Reading α) : ItemReader α := fun items ↦
  match items with
  | [] => .ok (default, [])
  | first :: items => do
    let value ← read first
    return (value, items)

/-- Reads all items. -/
def readItems (read : ItemReader α) (items : List Json) : Reading α := do
  let (value, rest) ← read items
  if rest.isEmpty then return value else .error .wrongLength

/-- Reads an object by its fields or an array by its items. -/
def readParts (ofFields : List (String × Json) → Reading α) (ofItems : ItemReader α) :
    Json → Reading α
  | .object fields => ofFields fields
  | .array items => readItems ofItems items
  | _ => .error .wrongType

end Parts

/-! ### Parts of a description -/

/-- Reads a constant. -/
def readConstant : Json → Reading Constant :=
  readParts
    (fun fields ↦ do
      let name? ← readField? fields "name" readText
      let symbol? ← readField? fields "symbol" readText
      let value? ← readField? fields "value" readLiteral
      let name ← require "name" name?
      let symbol ← require "symbol" symbol?
      let value ← require "value" value?
      return ⟨name, symbol, value⟩)
    (do
      let name ← item readText
      let symbol ← item readText
      let value ← item readLiteral
      return ⟨name, symbol, value⟩)

/-- Reads what describes a decision variable. -/
def readVariableDescription : Json → Reading VariableDescription :=
  readParts
    (fun fields ↦ do
      let initial? ← readField? fields "initial_value" readFloat?
      let lower? ← readField? fields "lowerbound" readFloat?
      let name? ← readField? fields "name" readText
      let dimensions? ← readField? fields "shape" (readList readNat)
      let symbol? ← readField? fields "symbol" readText
      let upper? ← readField? fields "upperbound" readFloat?
      let name ← require "name" name?
      let symbol ← require "symbol" symbol?
      return ⟨name, symbol, dimensions?.getD [], lower?.join, upper?.join, initial?.join⟩)
    (do
      let name ← item readText
      let symbol ← item readText
      let dimensions ← itemOr [] (readList readNat)
      let lower? ← itemOr none readFloat?
      let upper? ← itemOr none readFloat?
      let initial? ← itemOr none readFloat?
      return ⟨name, symbol, dimensions, lower?, upper?, initial?⟩)

/-- Reads a decision variable. Its shape is checked last. -/
def readVariable (j : Json) : Reading Variable := do
  let v ← readVariableDescription j
  v.variable

/-- Reads an extra function or a scalarization. -/
def readFunction : Json → Reading DerivedFunction :=
  readParts
    (fun fields ↦ do
      let expr? ← readField? fields "func" readExpr
      let name? ← readField? fields "name" readText
      let symbol? ← readField? fields "symbol" readText
      let name ← require "name" name?
      let symbol ← require "symbol" symbol?
      let expr ← require "func" expr?
      return ⟨name, symbol, expr⟩)
    (do
      let name ← item readText
      let symbol ← item readText
      let expr ← item readExpr
      return ⟨name, symbol, expr⟩)

/-- Reads an objective. -/
def readObjective : Json → Reading Objective :=
  readParts
    (fun fields ↦ do
      let expr? ← readField? fields "func" readExpr?
      let ideal? ← readField? fields "ideal" readFloat?
      let maximize? ← readField? fields "maximize" readFlag
      let nadir? ← readField? fields "nadir" readFloat?
      let name? ← readField? fields "name" readText
      let symbol? ← readField? fields "symbol" readText
      let name ← require "name" name?
      let symbol ← require "symbol" symbol?
      return ⟨name, symbol, expr?.join, maximize?.getD false, ideal?.join, nadir?.join⟩)
    (do
      let name ← item readText
      let symbol ← item readText
      let expr? ← itemOr none readExpr?
      let maximize ← itemOr false readFlag
      let ideal? ← itemOr none readFloat?
      let nadir? ← itemOr none readFloat?
      return ⟨name, symbol, expr?, maximize, ideal?, nadir?⟩)

/-- Reads a constraint. -/
def readConstraint : Json → Reading Constraint :=
  readParts
    (fun fields ↦ do
      let expr? ← readField? fields "func" readExpr
      let kind? ← readField? fields "kind" readKind
      let name? ← readField? fields "name" readText
      let symbol? ← readField? fields "symbol" readText
      let name ← require "name" name?
      let symbol ← require "symbol" symbol?
      let expr ← require "func" expr?
      return ⟨name, symbol, expr, kind?.getD .atMost⟩)
    (do
      let name ← item readText
      let symbol ← item readText
      let expr ← item readExpr
      let kind ← itemOr .atMost readKind
      return ⟨name, symbol, expr, kind⟩)

/-- Reads what describes stored samples. -/
def readSamplesDescription : Json → Reading SamplesDescription :=
  readParts
    (fun fields ↦ do
      let nonDominated? ← readField? fields "non_dominated" readFlag
      let values? ← readField? fields "objective_values" readColumns
      let decisions? ← readField? fields "variable_values" readColumns
      let decisions ← require "variable_values" decisions?
      let values ← require "objective_values" values?
      return ⟨decisions, values, nonDominated?.getD false⟩)
    (do
      let decisions ← item readColumns
      let values ← item readColumns
      let nonDominated ← itemOr false readFlag
      return ⟨decisions, values, nonDominated⟩)

/-- Reads stored samples. The lengths of their columns are checked last. -/
def readSamples (j : Json) : Reading StoredSamples := do
  let s ← readSamplesDescription j
  s.samples

/-- Reads stored samples that may be absent. -/
def readSamples? : Json → Reading (Option StoredSamples)
  | .null => .ok none
  | j => do
    let samples ← readSamples j
    return some samples

/-- Reads a draft. -/
def readDraft : Json → Reading Draft :=
  readParts
    (fun fields ↦ do
      let constants? ← readField? fields "constants" (readList readConstant)
      let constraints? ← readField? fields "constraints" (readList readConstraint)
      let about? ← readField? fields "description" readText
      let samples? ← readField? fields "discrete_representation" readSamples?
      let extraFunctions? ← readField? fields "extra_funcs" (readList readFunction)
      let name? ← readField? fields "name" readText
      let objectives? ← readField? fields "objectives" (readList readObjective)
      let scalarizations? ← readField? fields "scalarization_funcs" (readList readFunction)
      let decisions? ← readField? fields "variables" (readList readVariable)
      return {
        name := name?.getD ""
        about := about?.getD ""
        constants := constants?.getD []
        decisions := decisions?.getD []
        extraFunctions := extraFunctions?.getD []
        objectives := objectives?.getD []
        constraints := constraints?.getD []
        scalarizations := scalarizations?.getD []
        samples? := samples?.join })
    (do
      let name ← itemOr "" readText
      let about ← itemOr "" readText
      let constants ← itemOr [] (readList readConstant)
      let decisions ← itemOr [] (readList readVariable)
      let extraFunctions ← itemOr [] (readList readFunction)
      let objectives ← itemOr [] (readList readObjective)
      let constraints ← itemOr [] (readList readConstraint)
      let scalarizations ← itemOr [] (readList readFunction)
      let samples? ← itemOr none readSamples?
      return ⟨name, about, constants, decisions, extraFunctions, objectives, constraints,
        scalarizations, samples?⟩)

end Json

/-- Why a problem could not be loaded. -/
inductive LoadError where
  /-- Its description could not be read. -/
  | description (error : DescriptionError)
  /-- What is described is not sound. -/
  | problem (error : ProblemError)

/-- The message of the error. -/
def LoadError.message : LoadError → String
  | description error => error.message
  | problem error => error.message

/-- Loads a problem from its description. -/
def Problem.ofDescription? (j : Json) : Except LoadError Problem :=
  match j.readDraft with
  | .error e => .error (.description e)
  | .ok d =>
    match d.build with
    | .error e => .error (.problem e)
    | .ok p => .ok p

end Tradeoff
