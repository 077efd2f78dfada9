import Tradeoff.Formula.Error
import Tradeoff.Formula.Print
import Tradeoff.Table

/-!
# What can go wrong in an evaluation

A `Fault` is what is wrong at one node of an expression. Two of the faults depend on the values of a
sample and can be confined to its row; the others are the same for every sample. A `Failure` places
a fault: the field, the node and, for a fault of a sample, the sample. An `EvalError` ends an
evaluation.
-/

namespace Tradeoff

/-- What is wrong at a node of an expression. -/
inductive Fault where
  /-- A division by zero, or a negative power of zero. -/
  | divisionByZero
  /-- An argument for which the operator has no value. -/
  | domain (op : Operator)
  /-- A truth value where a number is needed, or an index that varies from sample to sample. -/
  | nonNumeric
  /-- A number of arguments that the operator does not take. -/
  | arity (op : Operator) (found : Nat)
  /-- An index that names no component. -/
  | indexOutOfRange (index : Float) (length : Nat)
  /-- A whole vector where a scalar is needed. -/
  | vectorInScalarContext (symbol : String)
  /-- A scalar where a vector is needed. -/
  | notAVector
deriving DecidableEq

namespace Fault

/-- Whether the fault depends on the values of a sample. -/
def isPerSample : Fault → Bool
  | divisionByZero | domain _ => true
  | _ => false

/-- The message of the fault. -/
def message : Fault → String
  | divisionByZero => "division by zero"
  | domain op => "argument outside the domain of `" ++ op.name ++ "`"
  | nonNumeric => "non-numeric value"
  | arity op found =>
    "`" ++ op.name ++ "` takes " ++ op.arity.text ++ " arguments, found " ++ toString found
  | indexOutOfRange index length =>
    "index " ++ NumberStyle.plain.write index ++ " is out of range for a vector of length " ++
      toString length
  | vectorInScalarContext symbol => "vector `" ++ symbol ++ "` used where a scalar is expected"
  | notAVector => "`At` expects a vector, found a scalar"

end Fault

/-- A fault and where it is. -/
structure Failure where
  /-- The symbol of the field whose expression it is in, if it is in a field. -/
  field : Option String
  /-- The formula of the node. -/
  node : String
  /-- The sample, if the fault depends on its values. -/
  sample : Option Nat
  /-- What is wrong. -/
  fault : Fault
deriving DecidableEq

/-- The message of the failure. -/
def Failure.message (f : Failure) : String :=
  f.fault.message ++ " in `" ++ f.node ++ "`" ++
    (match f.field with
      | none => ""
      | some field => " of `" ++ field ++ "`") ++
    (match f.sample with
      | none => ""
      | some sample => " at sample " ++ toString sample)

/-- Why an evaluation ended without a result. -/
inductive EvalError where
  /-- The batch lacks a column. -/
  | missingVariable (symbol : String)
  /-- Columns that do not fit together. -/
  | table (error : TableError)
  /-- A symbol that is not bound. -/
  | unknownSymbol (symbol field : String)
  /-- An objective that is only known from stored values. -/
  | dataBasedObjective (symbol : String)
  /-- A failure. -/
  | failure (failure : Failure)
  /-- A formula with an error. -/
  | formula (error : ParseError)

/-- The message of the error. -/
def EvalError.message : EvalError → String
  | missingVariable symbol => "variable `" ++ symbol ++ "` has no values in the batch"
  | table error => "invalid batch table: " ++ error.message
  | unknownSymbol symbol field =>
    "`" ++ field ++ "` references `" ++ symbol ++ "`, which is not bound"
  | dataBasedObjective symbol =>
    "objective `" ++ symbol ++ "` has no expression and can only be looked up in stored data"
  | failure f => f.message
  | formula error => "invalid expression: " ++ error.message

end Tradeoff
