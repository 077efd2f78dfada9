import Tradeoff.Expr.ArrayForm
import Tradeoff.Problem.Basic

/-!
# Writing descriptions

A description is a problem as a JSON value: an object with a list for each kind of field. An
expression is written in array form, so a bare symbol becomes a string. What is absent is written as
null, except for the shape of a scalar, the expression of an objective that has none, and stored
samples, which are left out.

The fields of every object are listed in the order of their keys.
-/

namespace Tradeoff

/-- A number that may be absent. -/
def Json.ofFloat? : Option Float → Json
  | none => .null
  | some x => .ofFloat x

/-- Columns by their symbols. -/
def Json.ofColumns (columns : SortedMap (Array Float)) : Json :=
  .object (columns.entries.map fun entry ↦
    (entry.1, .array (entry.2.toList.map Json.ofFloat)))

/-- The description of a literal. -/
def Literal.describe : Literal → Json
  | number x => .ofFloat x
  | bool b => .bool b

/-- The description of a constant. -/
def Constant.describe (c : Constant) : Json :=
  .object [("name", .string c.name), ("symbol", .string c.symbol), ("value", c.value.describe)]

/-- The entry for a shape: its dimensions, or nothing for a scalar. -/
def Shape.describe : Shape → List (String × Json)
  | scalar => []
  | vector length => [("shape", .array [.ofNat length])]

/-- The description of a decision variable. -/
def Variable.describe (v : Variable) : Json :=
  .object ([("initial_value", .ofFloat? v.initial?), ("lowerbound", .ofFloat? v.lower?),
      ("name", .string v.name)] ++ v.shape.describe ++
    [("symbol", .string v.symbol), ("upperbound", .ofFloat? v.upper?)])

/-- The description of an extra function or a scalarization. -/
def DerivedFunction.describe (f : DerivedFunction) : Json :=
  .object [("func", f.expr.toArrayForm), ("name", .string f.name), ("symbol", .string f.symbol)]

/-- The description of an objective. -/
def Objective.describe (f : Objective) : Json :=
  .object ((f.expr?.map fun e ↦ ("func", e.toArrayForm)).toList ++
    [("ideal", .ofFloat? f.ideal?), ("maximize", .bool f.maximize), ("nadir", .ofFloat? f.nadir?),
      ("name", .string f.name), ("symbol", .string f.symbol)])

/-- The name of a kind of constraints. -/
def ConstraintKind.name : ConstraintKind → String
  | atMost => "less_than_or_equal"
  | equal => "equal"

/-- The description of a constraint. -/
def Constraint.describe (c : Constraint) : Json :=
  .object [("func", c.expr.toArrayForm), ("kind", .string c.kind.name), ("name", .string c.name),
    ("symbol", .string c.symbol)]

/-- The description of stored samples. -/
def StoredSamples.describe (s : StoredSamples) : Json :=
  .object [("non_dominated", .bool s.nonDominated), ("objective_values", .ofColumns s.values),
    ("variable_values", .ofColumns s.decisions)]

/-- The description of a draft. -/
def Draft.describe (d : Draft) : Json :=
  .object ([("constants", .array (d.constants.map (·.describe))),
      ("constraints", .array (d.constraints.map (·.describe))),
      ("description", .string d.about)] ++
    (d.samples?.map fun s ↦ ("discrete_representation", s.describe)).toList ++
    [("extra_funcs", .array (d.extraFunctions.map (·.describe))),
      ("name", .string d.name),
      ("objectives", .array (d.objectives.map (·.describe))),
      ("scalarization_funcs", .array (d.scalarizations.map (·.describe))),
      ("variables", .array (d.decisions.map (·.describe)))])

/-- The description of a problem. -/
def Problem.describe (p : Problem) : Json := p.draft.describe

end Tradeoff
