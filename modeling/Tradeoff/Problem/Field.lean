import Tradeoff.Expr.Basic
import Tradeoff.Table

/-!
# Fields of a problem

A multiobjective problem consists of fields of six kinds: constants, decision variables, extra
functions, objectives, constraints and scalarizations. Each has a name for the reader and a symbol
for the formulas. An objective claims a second symbol, its alias, which stands for its value
oriented for minimization whatever its own direction is.
-/

namespace Tradeoff

/-- A named literal value. -/
structure Constant where
  /-- The name. -/
  name : String
  /-- The symbol. -/
  symbol : String
  /-- The value. -/
  value : Literal
deriving BEq

/-! ### Variables -/

/-- The shape of a decision variable. -/
inductive Shape where
  /-- One number. -/
  | scalar
  /-- A row of so many numbers. -/
  | vector (length : Nat)
deriving DecidableEq, Repr

/-- A shape with more than one dimension. -/
structure UnsupportedShape where
  /-- The symbol of the variable. -/
  symbol : String
  /-- The dimensions. -/
  dimensions : List Nat
deriving DecidableEq, Repr

/-- The message of the error. -/
def UnsupportedShape.message (e : UnsupportedShape) : String :=
  "variable `" ++ e.symbol ++ "` has unsupported shape [" ++
    ", ".intercalate (e.dimensions.map toString) ++ "]: only scalars and vectors are allowed"

namespace Shape

/-- The dimensions of a shape. -/
def dimensions : Shape → List Nat
  | scalar => []
  | vector length => [length]

/-- The shape with the given dimensions, if there are at most one. -/
def ofDimensions? : List Nat → Option Shape
  | [] => some scalar
  | [length] => some (vector length)
  | _ => none

/-- The number of components of a vector. -/
def length? : Shape → Option Nat
  | scalar => none
  | vector length => some length

@[simp] theorem ofDimensions?_dimensions (s : Shape) : ofDimensions? s.dimensions = some s := by
  cases s <;> rfl

end Shape

/-- A decision variable. -/
structure Variable where
  /-- The name. -/
  name : String
  /-- The symbol. -/
  symbol : String
  /-- The shape. -/
  shape : Shape
  /-- The lower bound of its values, if it is known. -/
  lower? : Option Float
  /-- The upper bound of its values, if it is known. -/
  upper? : Option Float
  /-- Where a search may start. -/
  initial? : Option Float
deriving BEq

/-- The width of the interval between the bounds, if both are known. -/
def Variable.boundRange? (v : Variable) : Option Float :=
  match v.lower?, v.upper? with
  | some lower, some upper => some (upper - lower)
  | _, _ => none

/-! ### Functions -/

/-- A quantity computed by an expression: an extra function, which later fields may use, or a
scalarization, which combines the objectives into one number. -/
structure DerivedFunction where
  /-- The name. -/
  name : String
  /-- The symbol. -/
  symbol : String
  /-- The expression. -/
  expr : Expr
deriving BEq

/-- The alias of an objective: the symbol of its value oriented for minimization. -/
def minAlias (symbol : String) : String := symbol ++ "_min"

/-- An objective. Without an expression its values are only known from stored samples. -/
structure Objective where
  /-- The name. -/
  name : String
  /-- The symbol. -/
  symbol : String
  /-- The expression, if there is one. -/
  expr? : Option Expr
  /-- Whether large values are better than small ones. -/
  maximize : Bool
  /-- The best value it takes, if it is known. -/
  ideal? : Option Float
  /-- The worst value worth considering, if it is known. -/
  nadir? : Option Float
deriving BEq

/-- Orients a value of the objective for minimization. -/
def Objective.orient (f : Objective) (value : Float) : Float :=
  if f.maximize then -value else value

/-- What a constraint asks of its value. -/
inductive ConstraintKind where
  /-- At most zero. -/
  | atMost
  /-- Zero. -/
  | equal
deriving DecidableEq, Repr

/-- Whether a constraint with the value holds within the tolerance. What is not a number never
does. -/
def ConstraintKind.isSatisfied : ConstraintKind → (value tolerance : Float) → Bool
  | atMost, value, tolerance => value ≤ tolerance
  | equal, value, tolerance => value.abs ≤ tolerance

/-- A constraint. -/
structure Constraint where
  /-- The name. -/
  name : String
  /-- The symbol. -/
  symbol : String
  /-- The expression. -/
  expr : Expr
  /-- What it asks of the value of the expression. -/
  kind : ConstraintKind
deriving BEq

/-! ### Fields -/

/-- A field of a problem. -/
inductive Field where
  /-- A constant. -/
  | constant (c : Constant)
  /-- A decision variable. -/
  | decision (v : Variable)
  /-- An extra function. -/
  | extraFunction (f : DerivedFunction)
  /-- An objective. -/
  | objective (f : Objective)
  /-- A constraint. -/
  | constraint (c : Constraint)
  /-- A scalarization. -/
  | scalarization (f : DerivedFunction)

namespace Field

/-- The name of a field. -/
def name : Field → String
  | constant c => c.name
  | decision v => v.name
  | extraFunction f => f.name
  | objective f => f.name
  | constraint c => c.name
  | scalarization f => f.name

/-- The symbol of a field. -/
def symbol : Field → String
  | constant c => c.symbol
  | decision v => v.symbol
  | extraFunction f => f.symbol
  | objective f => f.symbol
  | constraint c => c.symbol
  | scalarization f => f.symbol

/-- The expression of a field, if it has one. -/
def expr? : Field → Option Expr
  | constant _ | decision _ => none
  | extraFunction f => some f.expr
  | objective f => f.expr?
  | constraint c => some c.expr
  | scalarization f => some f.expr

/-- The symbols that a field claims: its own and, of an objective, the alias. -/
def claims : Field → List String
  | objective f => [f.symbol, minAlias f.symbol]
  | field => [field.symbol]

theorem symbol_mem_claims (field : Field) : field.symbol ∈ field.claims := by
  cases field <;> simp [claims, symbol]

end Field

end Tradeoff
