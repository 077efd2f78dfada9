import Tradeoff.Evaluation.Error
import Tradeoff.Problem.Draft

/-!
# The result of an evaluation

An `Evaluation` has a table of all computed columns after the columns of the decision variables, and
the failures met on the way. Once the constraints have been evaluated it also tells which samples
are feasible.

`Event` is what an evaluation reports while it goes on, and `Moment` an event together with the
result that the evaluation would have if it ended there.
-/

namespace Tradeoff

/-- Whether an evaluation went through all stages it was to go through. -/
inductive Status where
  /-- It did. -/
  | complete
  /-- It was stopped before. -/
  | stopped
deriving DecidableEq, Repr

/-- The result of an evaluation. -/
structure Evaluation where
  /-- The columns of the decision variables and of all fields evaluated so far. -/
  table : Table
  /-- The failures of samples, the latest first. -/
  latestFailures : List Failure
  /-- Whether it is complete. -/
  status : Status
  /-- The symbols and kinds of the constraints, once they have been evaluated. -/
  constraints? : Option (List (String × ConstraintKind))

namespace Evaluation

/-- The failures of samples in the order in which they were found. -/
def failures (result : Evaluation) : List Failure := result.latestFailures.reverse

/-- The result with one more failure. -/
def record (result : Evaluation) (failure : Failure) : Evaluation :=
  { result with latestFailures := failure :: result.latestFailures }

@[simp] theorem failures_record (result : Evaluation) (failure : Failure) :
    (result.record failure).failures = result.failures ++ [failure] := by
  simp [failures, record]

/-- Whether no sample failed. -/
def isClean (result : Evaluation) : Bool := result.latestFailures.isEmpty

/-- The constraints with their columns, once they have been evaluated. -/
def constraintColumns? (result : Evaluation) : Option (List (ConstraintKind × Array Float)) :=
  result.constraints?.bind fun constraints ↦
    constraints.mapM fun constraint ↦
      (result.table.find? constraint.1).map fun values ↦ (constraint.2, values)

/-- Which samples satisfy all constraints within the tolerance, once they have been evaluated. -/
def feasible? (result : Evaluation) (tolerance : Float) : Option (List Bool) :=
  result.constraintColumns?.map fun columns ↦
    (List.range result.table.rows).map fun sample ↦
      columns.all fun column ↦
        match column.2[sample]? with
        | none => true
        | some value => column.1.isSatisfied value tolerance

end Evaluation

/-- Something that an evaluation reports. -/
inductive Event where
  /-- A sample failed and the evaluation goes on without it. -/
  | rowFailed (stage : Stage) (failure : Failure)
  /-- All fields of a stage are in the table. -/
  | stageCompleted (stage : Stage) (table : Table)

/-- A point at which an evaluation can be ended. -/
structure Moment where
  /-- What is reported. -/
  event : Event
  /-- The result so far. A stage that is not completed has no column in it. -/
  soFar : Evaluation

end Tradeoff
