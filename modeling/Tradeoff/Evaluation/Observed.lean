import Tradeoff.Evaluation.Run

/-!
# Observed evaluations

An observer sees the events of an evaluation one after another and may answer one of them, which
ends the evaluation. Until then it has no influence. So an observed evaluation is a fixed sequence
of moments that an observer may cut short.
-/

namespace Tradeoff

/-- How an observer answers an event. -/
inductive Action where
  /-- What failed is an error. -/
  | abort
  /-- The evaluation ends with what it has. -/
  | stopEarly
deriving DecidableEq, Repr

/-- An observer: its answer, if any, to an event, which may depend on the events before it, the
latest of them first. -/
abbrev Observer := (earlier : List Event) → Event → Option Action

/-- The observer that never answers. -/
def Observer.silent : Observer := fun _ _ ↦ none

/-- What an answer makes of an evaluation. Only the failure of a sample can be made an error; after
a completed stage either answer ends the evaluation with what it has. -/
def Moment.answered (m : Moment) (action : Action) : Except EvalError Evaluation :=
  match m.event, action with
  | .rowFailed _ failure, .abort => .error (.failure failure)
  | _, _ => .ok { m.soFar with status := .stopped }

namespace Observer

/-- Shows moments to an observer until it answers one. The result is the events it has seen, in
order, and what is made of the evaluation; `outcome` is for when it answers none. -/
def watch (observer : Observer) (outcome : Except EvalError Evaluation) (earlier : List Event) :
    List Moment → List Event × Except EvalError Evaluation
  | [] => ([], outcome)
  | m :: moments =>
    match observer earlier m.event with
    | some action => ([m.event], m.answered action)
    | none =>
      let (events, result) := watch observer outcome (m.event :: earlier) moments
      (m.event :: events, result)

theorem watch_silent (outcome : Except EvalError Evaluation) (earlier : List Event)
    (moments : List Moment) :
    silent.watch outcome earlier moments = (moments.map Moment.event, outcome) := by
  induction moments generalizing earlier with
  | nil => rfl
  | cons m moments ih => simp [watch, silent, ih]

end Observer

/-- Evaluates a problem over a batch under an observer. The result is the events it has seen, in
order, and what became of the evaluation. -/
def Problem.evaluateObserved (p : Problem) (batch : Table) (plan : Plan) (observer : Observer) :
    List Event × Except EvalError Evaluation :=
  let attempt := p.run batch plan
  observer.watch attempt.result [] attempt.notes

/-- Under an observer that never answers, a problem is evaluated as without any. -/
theorem Problem.evaluateObserved_silent (p : Problem) (batch : Table) (plan : Plan) :
    (p.evaluateObserved batch plan .silent).2 = p.evaluate batch plan := by
  simp [evaluateObserved, evaluate, Observer.watch_silent]

end Tradeoff
