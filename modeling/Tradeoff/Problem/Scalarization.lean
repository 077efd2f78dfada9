import Tradeoff.Problem.Basic

/-!
# Scalarizations of a problem

A scalarization combines the objectives into one number to be minimized. Its expression is made for
a problem, always from the aliases of the objectives, so that it does not depend on their
directions: as a weighted sum, as an achievement function for a reference point, or in any other
way.
-/

namespace Tradeoff

/-- Why a scalarization could not be added to a problem. -/
inductive ScalarizationError where
  /-- The problem with it would not be sound. -/
  | problem (error : ProblemError)
  /-- A parameter, told by a few words, that was not given for an objective. -/
  | missingParameter (objective parameter : String)
deriving DecidableEq, Repr

/-- The message of the error. -/
def ScalarizationError.message : ScalarizationError → String
  | problem error => error.message
  | missingParameter objective parameter =>
    "no " ++ parameter ++ " given for objective `" ++ objective ++ "`"

/-- A way to make the expression of a scalarization for a problem. -/
abbrev Scalarizer := Problem → Except ScalarizationError Expr

/-- The objectives with their parameters, or the error of the first that has none. The words tell
in this error what kind of parameter it is. -/
def withParameters (parameters : SortedMap Float) (words : String) :
    List Objective → Except ScalarizationError (List (Objective × Float))
  | [] => .ok []
  | f :: objectives =>
    match parameters.find? f.symbol with
    | none => .error (.missingParameter f.symbol words)
    | some parameter =>
      match withParameters parameters words objectives with
      | .error e => .error e
      | .ok rest => .ok ((f, parameter) :: rest)

/-- The sum of some terms. One term is its own sum. -/
def Expr.total : List Expr → Expr
  | [term] => term
  | terms => .operation .add terms

namespace Objective

/-- The alias of the objective as an expression. -/
def aliasExpr (f : Objective) : Expr := .symbol (minAlias f.symbol)

/-- The weight that makes up for the range of the objective: one over the distance between its best
and worst value, or one if that is not known or zero. -/
def weight (f : Objective) : Float :=
  match f.ideal?, f.nadir? with
  | some ideal, some nadir =>
    if 0 < (nadir - ideal).abs then 1 / (nadir - ideal).abs else 1
  | _, _ => 1

/-- The weighted alias. -/
def weighted (f : Objective) (w : Float) : Expr := .multiply (.number w) f.aliasExpr

/-- The weighted amount by which the alias exceeds a reference value, which is given in the
objective's own direction. -/
def deviation (f : Objective) (reference : Float) : Expr :=
  .multiply (.number f.weight) (.add f.aliasExpr (.number (-f.orient reference)))

end Objective

/-- The weighted sum of the objectives. -/
def weightedSum (weights : SortedMap Float) : Scalarizer := fun p ↦
  match withParameters weights "weight" p.draft.objectives with
  | .error e => .error e
  | .ok objectives => .ok (.total (objectives.map fun (f, w) ↦ f.weighted w))

/-- A reference point and how much the sum of the objectives counts beside the distance to it. -/
structure Achievement where
  /-- The wanted value of each objective, in its own direction. -/
  reference : SortedMap Float
  /-- The factor of the sum. -/
  rho : Float

/-- The factor of the sum when none is given. -/
def Achievement.defaultRho : Float := 1e-6

/-- The achievement function: the greatest deviation from the reference point and, unless its factor
is zero, the sum of the weighted objectives times the factor. -/
def Achievement.scalarizer (a : Achievement) : Scalarizer := fun p ↦
  match withParameters a.reference "reference point value" p.draft.objectives with
  | .error e => .error e
  | .ok objectives =>
    let worst := Expr.operation .max (objectives.map fun (f, z) ↦ f.deviation z)
    if a.rho == 0 then .ok worst
    else
      let sum := Expr.total (objectives.map fun (f, _) ↦ f.weighted f.weight)
      .ok (.add worst (.multiply (.number a.rho) sum))

/-- The draft with one more scalarization. -/
def Draft.addScalarization (d : Draft) (f : DerivedFunction) : Draft :=
  { d with scalarizations := d.scalarizations ++ [f] }

/-- The problem with one more scalarization. That the symbol is new is checked before the expression
is made. -/
def Problem.addScalarization (p : Problem) (name symbol : String) (make : Scalarizer) :
    Except ScalarizationError Problem :=
  if p.contains symbol then .error (.problem (.duplicateSymbol symbol))
  else
    match make p with
    | .error e => .error e
    | .ok e =>
      match (p.draft.addScalarization ⟨name, symbol, e⟩).build with
      | .error e => .error (.problem e)
      | .ok q => .ok q

end Tradeoff
