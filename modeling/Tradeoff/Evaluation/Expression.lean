import Tradeoff.Evaluation.Arithmetic
import Tradeoff.Evaluation.Attempt
import Tradeoff.Formula.Parse

/-!
# The value of an expression

`Expr.attempt` computes an expression for every sample of an environment at once, node by node.
Only a bare symbol can have a vector for its value; operators that expand vectors take its
components in its place, the component operator takes one of them, and everything else takes
scalars.

An operation on constant columns alone is computed once and gives a constant column. If it has a
fault, every sample has that fault.

Faults of the tree are errors: truth values and vectors out of place, wrong numbers of arguments,
bad indices. Faults of a sample are noted, and the value for the sample is then not a number.
-/

namespace Tradeoff

/-- The value of a subexpression. -/
inductive Value where
  /-- A scalar for each sample. -/
  | scalar (column : Column)
  /-- The vector variable of a symbol, by its components. -/
  | vector (symbol : String) (components : List Column)

/-- The constants, if all the columns are constant. -/
def constants? : List Column → Option (List Float)
  | [] => some []
  | .constant value :: columns => (constants? columns).map (value :: ·)
  | .samples _ :: _ => none

/-- Where an expression is evaluated: over which bindings, and in which field. -/
structure Scene where
  /-- The bindings. -/
  env : Environment
  /-- The symbol of the field, if the expression belongs to one. -/
  field : Option String

namespace Scene

/-- The error of a fault that does not depend on a sample. -/
def structural (scene : Scene) (node : Expr) (fault : Fault) : EvalError :=
  .failure ⟨scene.field, node.text, none, fault⟩

/-- The failures of samples at a node, by the faults that samples have there. -/
def rowFailures (scene : Scene) (node : Expr) (fault? : Nat → Option Fault) : List Failure :=
  (List.range scene.env.rows).filterMap fun sample ↦
    (fault? sample).map fun fault ↦ ⟨scene.field, node.text, some sample, fault⟩

/-- The error of a column that has not one value for each sample. -/
def misfit? (scene : Scene) (symbol : String) : Column → Option EvalError
  | .constant _ => none
  | .samples values =>
    if values.size = scene.env.rows then none
    else some (.table (.lengthMismatch symbol scene.env.rows values.size))

/-- What a symbol stands for. A truth value has no place in an expression, and every column has to
have the length of the environment. -/
def lookup (scene : Scene) (symbol : String) : Attempt Failure Value :=
  match scene.env.find? symbol with
  | none => .fail (.unknownSymbol symbol (scene.field.getD "<expression>"))
  | some (.flag _) => .fail (scene.structural (.symbol symbol) .nonNumeric)
  | some (.scalar column) =>
    match scene.misfit? symbol column with
    | some error => .fail error
    | none => .succeed (.scalar column)
  | some (.vector components) =>
    match components.findSome? (scene.misfit? symbol) with
    | some error => .fail error
    | none => .succeed (.vector symbol components)

/-- An operator on columns, at the node it belongs to. -/
def applyRows (scene : Scene) (node : Expr) (op : Operator) (columns : List Column) :
    Attempt Failure Column :=
  match constants? columns with
  | some args =>
    match op.apply args with
    | .ok value => .succeed (.constant value)
    | .error fault => ⟨scene.rowFailures node fun _ ↦ some fault, .ok (.constant notANumber)⟩
  | none =>
    let outcomes := (Array.range scene.env.rows).map fun sample ↦
      op.apply (columns.map fun column ↦ column.get sample)
    ⟨scene.rowFailures node fun sample ↦
        match outcomes[sample]? with
        | some (.error fault) => some fault
        | _ => none,
      .ok (.samples (outcomes.map fun outcome ↦
        match outcome with
        | .ok value => value
        | .error _ => notANumber))⟩

/-- The component of a vector that an index names. The index has to be the same for every sample. -/
def component (scene : Scene) (node indexNode : Expr) (components : List Column) (index : Value) :
    Attempt Failure Value :=
  match index with
  | .vector symbol _ => .fail (scene.structural indexNode (.vectorInScalarContext symbol))
  | .scalar (.samples _) => .fail (scene.structural indexNode .nonNumeric)
  | .scalar (.constant index) =>
    match (offset? index).bind fun offset ↦ components[offset]? with
    | some column => .succeed (.scalar column)
    | none => .fail (scene.structural node (.indexOutOfRange index components.length))

end Scene

namespace Expr

mutual

/-- The value of an expression. The number of arguments is checked before any of them, and arguments
are evaluated from left to right. -/
def attempt (scene : Scene) : Expr → Attempt Failure Value
  | .literal (.number value) => .succeed (.scalar (.constant value))
  | .literal (.bool value) => .fail (scene.structural (.bool value) .nonNumeric)
  | .symbol name => scene.lookup name
  | .operation op args =>
    if op.arity.accepts args.length then
      match op, args with
      | .component, [vector, index] =>
        (attempt scene vector).andThen fun value ↦
          match value with
          | .scalar _ => .fail (scene.structural vector .notAVector)
          | .vector _ components =>
            (attempt scene index).andThen fun position ↦
              scene.component (.operation .component [vector, index]) index components position
      | op, args =>
        (attemptColumns scene op args).andThen fun columns ↦
          (scene.applyRows (.operation op args) op columns).andThen fun column ↦
            .succeed (.scalar column)
    else .fail (scene.structural (.operation op args) (.arity op args.length))

/-- The columns that an operator takes from its arguments. A whole vector is expanded if the
operator expands vectors, and is out of place otherwise. -/
def attemptColumns (scene : Scene) (op : Operator) : List Expr → Attempt Failure (List Column)
  | [] => .succeed []
  | arg :: args =>
    (attempt scene arg).andThen fun value ↦
      match value with
      | .scalar column =>
        (attemptColumns scene op args).andThen fun columns ↦ .succeed (column :: columns)
      | .vector name components =>
        if op.expandsVectors then
          (attemptColumns scene op args).andThen fun columns ↦ .succeed (components ++ columns)
        else .fail (scene.structural arg (.vectorInScalarContext name))

end

/-- The column of a whole expression, whose value has to be a scalar. -/
def attemptColumn (scene : Scene) (e : Expr) : Attempt Failure Column :=
  (e.attempt scene).andThen fun value ↦
    match value with
    | .scalar column => .succeed column
    | .vector name _ => .fail (scene.structural e (.vectorInScalarContext name))

end Expr

end Tradeoff
