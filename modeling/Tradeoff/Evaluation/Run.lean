import Tradeoff.Evaluation.Policy
import Tradeoff.Evaluation.Result
import Tradeoff.Problem.Basic

/-!
# Evaluating a problem

A batch has a column for every scalar decision variable and for every component of a vector
variable. From it a problem is evaluated stage by stage. The fields of a stage are all evaluated
with the bindings of the earlier stages. Then their columns enter the table and their symbols the
environment, of an objective also the oriented values under its alias. Stages without fields report
nothing.

`Problem.run` goes through all stages and notes each moment at which an observer may step in; what
observers do is the matter of `Problem.evaluateObserved`.
-/

namespace Tradeoff

/-- How an evaluation is to be carried out. -/
structure Plan where
  /-- What becomes of failures of samples. -/
  policy : Policy := .failFast
  /-- The last stage. -/
  last : Stage := .scalarizations
deriving DecidableEq, Repr

/-- The state of an evaluation between two stages. -/
structure Progress where
  /-- The bindings for the next stage. -/
  env : Environment
  /-- The result so far. -/
  soFar : Evaluation

/-! ### Decision variables -/

/-- What a decision variable is bound to, and its columns in a batch. -/
def Variable.input (v : Variable) (batch : Table) :
    Except EvalError (Binding × List (String × Array Float)) :=
  match v.shape with
  | .scalar =>
    match batch.find? v.symbol with
    | none => .error (.missingVariable v.symbol)
    | some values => .ok (.scalar (.samples values), [(v.symbol, values)])
  | .vector length =>
    match batch.componentColumns v.symbol 1 length with
    | .error label => .error (.missingVariable label)
    | .ok columns => .ok (.vector (columns.map fun column ↦ .samples column.2), columns)

/-- Binds decision variables and copies their columns. -/
def bindVariables (batch : Table) (env : Environment) (table : Table) :
    List Variable → Except EvalError (Environment × Table)
  | [] => .ok (env, table)
  | v :: rest =>
    match v.input batch with
    | .error e => .error e
    | .ok (binding, columns) =>
      match table.insertAll columns with
      | .error e => .error (.table e)
      | .ok table => bindVariables batch (env.bind v.symbol binding) table rest

/-- The state before the first stage. -/
def Problem.start (p : Problem) (batch : Table) : Except EvalError Progress :=
  match bindVariables batch (.empty batch.rows) .empty p.draft.decisions with
  | .error e => .error e
  | .ok (env, table) => .ok ⟨env, ⟨table, [], .complete, none⟩⟩

/-! ### Fields -/

/-- What a constant is bound to. -/
def Literal.binding : Literal → Binding
  | number value => .scalar (.constant value)
  | bool value => .flag value

/-- The column that a binding has in the table; a truth value is one or zero there. The components
of vectors have columns of their own. -/
def Binding.column? (rows : Nat) : Binding → Option (Array Float)
  | scalar column => some (column.broadcast rows)
  | vector _ => none
  | flag value => some (Array.replicate rows (if value then 1 else 0))

/-- What a field adds to an evaluation. -/
structure Contribution where
  /-- Bindings of the symbols that it claims. -/
  bindings : List (String × Binding)
  /-- Failures to report. -/
  failures : List Failure

namespace Field

/-- The bindings of the symbols that a field claims, from its column. -/
def bindings (column : Column) : Field → List (String × Binding)
  | objective f =>
    [(f.symbol, .scalar column), (minAlias f.symbol, .scalar (column.map f.orient))]
  | field => [(field.symbol, .scalar column)]

/-- Evaluates a field. A constant has its value; any other field needs an expression. -/
def contribute (env : Environment) (policy : Policy) (field : Field) :
    Except EvalError Contribution :=
  match field with
  | constant c => .ok ⟨[(c.symbol, c.value.binding)], []⟩
  | field =>
    match field.expr? with
    | none => .error (.dataBasedObjective field.symbol)
    | some e =>
      match e.computeColumn ⟨env, some field.symbol⟩ policy with
      | .error error => .error error
      | .ok (column, failures) => .ok ⟨field.bindings column, failures⟩

end Field

/-! ### Stages -/

/-- Adds failures to a result one by one, with the moment of each. -/
def recordFailures (stage : Stage) (soFar : Evaluation) : List Failure → Attempt Moment Evaluation
  | [] => .succeed soFar
  | failure :: failures =>
    let next := soFar.record failure
    Attempt.andThen ⟨[⟨.rowFailed stage failure, next⟩], .ok next⟩ fun next ↦
      recordFailures stage next failures

/-- Evaluates the fields of a stage one after another. The result is the new bindings and the result
so far with all failures. -/
def runFields (stage : Stage) (env : Environment) (policy : Policy) (soFar : Evaluation) :
    List Field → Attempt Moment (Evaluation × List (String × Binding))
  | [] => .succeed (soFar, [])
  | field :: fields =>
    match field.contribute env policy with
    | .error e => .fail e
    | .ok contribution =>
      (recordFailures stage soFar contribution.failures).andThen fun soFar ↦
        (runFields stage env policy soFar fields).andThen fun (soFar, bindings) ↦
          .succeed (soFar, contribution.bindings ++ bindings)

namespace Problem

/-- The constraints that are on record after a stage. -/
def constraintsAfter (p : Problem) (stage : Stage) (soFar : Evaluation) :
    Option (List (String × ConstraintKind)) :=
  if stage = .constraints then some (p.draft.constraints.map fun c ↦ (c.symbol, c.kind))
  else soFar.constraints?

/-- Goes through one stage. -/
def runStage (p : Problem) (policy : Policy) (progress : Progress) (stage : Stage) :
    Attempt Moment Progress :=
  let fields := p.draft.stageFields stage
  (runFields stage progress.env policy progress.soFar fields).andThen fun (soFar, bindings) ↦
    let columns := bindings.filterMap fun binding ↦
      (binding.2.column? progress.env.rows).map fun values ↦ (binding.1, values)
    match soFar.table.insertAll columns with
    | .error e => .fail (.table e)
    | .ok table =>
      let soFar := { soFar with table, constraints? := p.constraintsAfter stage soFar }
      ⟨if fields.isEmpty then [] else [⟨.stageCompleted stage table, soFar⟩],
        .ok ⟨progress.env.bindAll bindings, soFar⟩⟩

/-- Goes through stages in order. -/
def runStages (p : Problem) (policy : Policy) (progress : Progress) :
    List Stage → Attempt Moment Progress
  | [] => .succeed progress
  | stage :: stages =>
    (p.runStage policy progress stage).andThen fun progress ↦ p.runStages policy progress stages

/-- Evaluates a problem over a batch and notes all moments on the way. -/
def run (p : Problem) (batch : Table) (plan : Plan) : Attempt Moment Evaluation :=
  match p.start batch with
  | .error e => .fail e
  | .ok progress =>
    (p.runStages plan.policy progress plan.last.upTo).andThen fun progress ↦
      .succeed progress.soFar

/-- Evaluates a problem over a batch. -/
def evaluate (p : Problem) (batch : Table) (plan : Plan) : Except EvalError Evaluation :=
  (p.run batch plan).result

end Problem

end Tradeoff
