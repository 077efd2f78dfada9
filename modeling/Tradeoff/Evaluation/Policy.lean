import Tradeoff.Evaluation.Expression

/-!
# Expressions under a policy

`Expr.compute` evaluates an expression under a policy, which has its say at every failure of a
sample. Failing fast, nothing is evaluated after the first failure, not even for the samples that
are left of the same node. Otherwise the failure goes on record, unless one of its sample is there
already, and the sample has a value that is not a number.

The error of a fault that does not depend on a sample ends the evaluation under either policy, also
when failures are on record.
-/

namespace Tradeoff

/-- The failures of samples that are on record. -/
structure FailureLog where
  /-- The failures in the order in which they were met. -/
  failures : Array Failure
  /-- The samples that have failed. -/
  samples : List Nat

namespace FailureLog

/-- The record without failures. -/
def empty : FailureLog := ⟨#[], []⟩

/-- The record with the failure of a sample, which counts only if it is the first of the sample. -/
def record (log : FailureLog) (sample : Nat) (failure : Failure) : FailureLog :=
  if sample ∈ log.samples then log else ⟨log.failures.push failure, sample :: log.samples⟩

end FailureLog

/-- A computation that puts failures on record and may end in an error. -/
abbrev Logged (α : Type) := StateT FailureLog (Except EvalError) α

namespace Scene

variable (scene : Scene) (policy : Policy)

/-- Deals with the fault of a sample at a node. -/
def failSample (node : Expr) (sample : Nat) (fault : Fault) : Logged Unit :=
  let failure : Failure := ⟨scene.field, node.text, some sample, fault⟩
  match policy with
  | .failFast => throw (.failure failure)
  | .perRow => modify fun log ↦ log.record sample failure

/-- The value of a sample at a node; not a number if there is a fault that does not end the
evaluation. -/
def settleSample (node : Expr) (sample : Nat) : Except Fault Float → Logged Float
  | .ok value => return value
  | .error fault => do
    scene.failSample policy node sample fault
    return notANumber

/-- An operator on columns, at the node it belongs to, sample by sample. -/
def computeRows (node : Expr) (op : Operator) (columns : List Column) : Logged Column :=
  match constants? columns with
  | some args =>
    match op.apply args with
    | .ok value => return .constant value
    | .error fault => do
      (List.range scene.env.rows).forM fun sample ↦ scene.failSample policy node sample fault
      return .constant notANumber
  | none => do
    let values ← (List.range scene.env.rows).mapM fun sample ↦
      scene.settleSample policy node sample (op.apply (columns.map fun column ↦ column.get sample))
    return .samples values.toArray

end Scene

namespace Expr

mutual

/-- The value of an expression. -/
def compute (scene : Scene) (policy : Policy) : Expr → Logged Value
  | .literal (.number value) => return .scalar (.constant value)
  | .literal (.bool value) => throw (scene.structural (.bool value) .nonNumeric)
  | .symbol name => (scene.lookup name).result
  | .operation op args =>
    if op.arity.accepts args.length then
      match op, args with
      | .component, [vector, index] => do
        match ← compute scene policy vector with
        | .scalar _ => throw (scene.structural vector .notAVector)
        | .vector _ components =>
          let position ← compute scene policy index
          (scene.component (.operation .component [vector, index]) index components position).result
      | op, args => do
        let columns ← computeColumns scene policy op args
        let column ← scene.computeRows policy (.operation op args) op columns
        return .scalar column
    else throw (scene.structural (.operation op args) (.arity op args.length))

/-- The columns that an operator takes from its arguments. -/
def computeColumns (scene : Scene) (policy : Policy) (op : Operator) :
    List Expr → Logged (List Column)
  | [] => return []
  | arg :: args => do
    match ← compute scene policy arg with
    | .scalar column =>
      let columns ← computeColumns scene policy op args
      return column :: columns
    | .vector name components =>
      if op.expandsVectors then
        let columns ← computeColumns scene policy op args
        return components ++ columns
      else throw (scene.structural arg (.vectorInScalarContext name))

end

/-- The column of a whole expression with the failures to report, or an error. -/
def computeColumn (scene : Scene) (policy : Policy) (e : Expr) :
    Except EvalError (Column × List Failure) := do
  let (value, log) ← (e.compute scene policy).run .empty
  match value with
  | .scalar column => return (column, log.failures.toList)
  | .vector name _ => throw (scene.structural e (.vectorInScalarContext name))

/-- The values of an expression for the samples of an environment, and the failures to report. -/
def evaluate (e : Expr) (env : Environment) (policy : Policy) :
    Except EvalError (Array Float × List Failure) :=
  match e.computeColumn ⟨env, none⟩ policy with
  | .error error => .error error
  | .ok (column, failures) => .ok (column.broadcast env.rows, failures)

end Expr

/-- The values of a formula over the columns of a table. -/
def evaluateFormula (formula : String) (batch : Table) : Except EvalError (Array Float) :=
  match parse formula with
  | .error e => .error (.formula e)
  | .ok e =>
    match e.evaluate (.ofTable batch) .failFast with
    | .error error => .error error
    | .ok (values, _) => .ok values

end Tradeoff
