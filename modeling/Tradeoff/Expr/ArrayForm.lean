import Tradeoff.Formula.Parse

/-!
# Expressions as JSON values

The array form of an expression writes an operation as an array of the operator's name and the
arguments, a symbol as a string and a literal as itself. A number that is not finite has no array
form; null is written for it, and null does not read back.

In a description a whole expression may also be written as a formula. So a string stands for a
formula where an expression begins (`Expr.ofSource?`) and for a symbol inside an array form.
-/

namespace Tradeoff

namespace Expr

mutual

/-- The array form of an expression. -/
def toArrayForm : Expr → Json
  | .literal (.number x) => .ofFloat x
  | .literal (.bool b) => .bool b
  | .symbol name => .string name
  | .operation op args => .array (.string op.name :: toArrayForms args)

/-- The array forms of the arguments. -/
def toArrayForms : List Expr → List Json
  | [] => []
  | arg :: args => toArrayForm arg :: toArrayForms args

end

mutual

/-- The expression of an array form. Of an array, first the head has to be a string, then the
arguments are read from left to right, and last the name and the number of arguments are checked. -/
def ofArrayForm? : Json → Except MalformedExpr Expr
  | .number n => .ok (.number n.toFloat)
  | .bool b => .ok (.bool b)
  | .string name => .ok (.symbol name)
  | .array [] => .error .emptyArray
  | .array (.string name :: items) =>
    match ofArrayForms? items with
    | .error e => .error e
    | .ok args => call? name args
  | .array (head :: _) => .error (.notAName head)
  | .null => .error (.unexpectedValue .null)
  | .object fields => .error (.unexpectedValue (.object fields))

/-- The expressions of a list of array forms, or the first error among them. -/
def ofArrayForms? : List Json → Except MalformedExpr (List Expr)
  | [] => .ok []
  | item :: items =>
    match ofArrayForm? item with
    | .error e => .error e
    | .ok arg =>
      match ofArrayForms? items with
      | .error e => .error e
      | .ok args => .ok (arg :: args)

end

end Expr

/-- Why an expression of a description could not be read. -/
inductive SourceError where
  /-- It is a formula with an error. -/
  | formula (error : ParseError)
  /-- It is no array form. -/
  | arrayForm (error : MalformedExpr)

/-- The message of the error. -/
def SourceError.message : SourceError → String
  | formula error => "invalid infix expression: " ++ error.message
  | arrayForm error => error.message

/-- Reads an expression of a description: a string is a formula, anything else an array form. -/
def Expr.ofSource? : Json → Except SourceError Expr
  | .string formula =>
    match parse formula with
    | .error e => .error (.formula e)
    | .ok e => .ok e
  | value =>
    match Expr.ofArrayForm? value with
    | .error e => .error (.arrayForm e)
    | .ok e => .ok e

end Tradeoff
