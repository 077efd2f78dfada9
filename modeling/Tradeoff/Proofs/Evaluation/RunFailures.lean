import Tradeoff.Proofs.Evaluation.Form
import Tradeoff.Proofs.Evaluation.Moments
import Tradeoff.Proofs.Problem.Finite
import Tradeoff.Proofs.Problem.Soundness

/-!
# All failures of an evaluation

The failures of a problem are those of its expressions: what holds of every failure that an
expression can have, in whatever environment, holds of every failure that an evaluation reports,
keeps on record or ends in, under any observer (`Problem.evaluateObserved_failsOnly`). A stage adds
the failures of its fields to those on record (`Problem.runStage_failsOnly`), and an observer does
not see any others.
-/

namespace Tradeoff

variable {P : Failure → Prop}

/-- If the error is a failure, it has the property. -/
def EvalError.FailsOnly (P : Failure → Prop) (error : EvalError) : Prop :=
  ∀ f, error = .failure f → P f

/-- The failures on record have the property. -/
def Evaluation.FailsOnly (P : Failure → Prop) (result : Evaluation) : Prop :=
  ∀ f ∈ result.failures, P f

/-- The failure that is reported has the property, and so have those on record. -/
structure Moment.FailsOnly (P : Failure → Prop) (m : Moment) : Prop where
  event : ∀ f ∈ m.event.failure?, P f
  soFar : m.soFar.FailsOnly P

/-- All failures have the property: at each moment, of the result, and the one that may end the
attempt. -/
structure Attempt.FailsOnly {α : Type} (P : Failure → Prop) (soFar : α → Evaluation)
    (a : Attempt Moment α) : Prop where
  moments : ∀ m ∈ a.notes, m.FailsOnly P
  ends : a.Ends (fun value ↦ (soFar value).FailsOnly P) (EvalError.FailsOnly P)

/-- All failures of the expression have the property, wherever it is evaluated. -/
def Expr.FailsOnly (P : Failure → Prop) (e : Expr) : Prop :=
  ∀ scene f, f ∈ (e.attemptColumn scene).notes ∨
    (e.attemptColumn scene).result = .error (.failure f) → P f

/-- All failures of the field have the property, wherever it is evaluated. -/
structure Field.FailsOnly (P : Failure → Prop) (field : Field) : Prop where
  failures : ∀ env policy c, field.contribute env policy = .ok c → ∀ f ∈ c.failures, P f
  error : ∀ env policy error, field.contribute env policy = .error error → error.FailsOnly P

theorem EvalError.failsOnly_table (error : TableError) : (table error).FailsOnly P := by
  intro f hf
  cases hf

theorem EvalError.failsOnly_missingVariable (symbol : String) :
    (missingVariable symbol).FailsOnly P := by
  intro f hf
  cases hf

namespace Attempt

variable {α β : Type} {soFar : α → Evaluation} {soFar' : β → Evaluation}

/-- An attempt that only ends in an error has no moments. -/
theorem failsOnly_fail {error : EvalError} (h : error.FailsOnly P) :
    (fail error).FailsOnly P soFar := ⟨fun _ hm ↦ absurd hm List.not_mem_nil, h⟩

theorem failsOnly_succeed {value : α} (h : (soFar value).FailsOnly P) :
    (succeed value).FailsOnly P soFar := ⟨fun _ hm ↦ absurd hm List.not_mem_nil, h⟩

/-- Two attempts in a row have the failures of both. -/
theorem FailsOnly.andThen {a : Attempt Moment α} {next : α → Attempt Moment β}
    (h : a.FailsOnly P soFar)
    (hnext : ∀ value, (soFar value).FailsOnly P → (next value).FailsOnly P soFar') :
    (a.andThen next).FailsOnly P soFar' := by
  obtain ⟨notes, error | value⟩ := a
  · exact ⟨h.moments, h.ends⟩
  · have hvalue := hnext value h.ends
    refine ⟨fun m hm ↦ ?_, hvalue.ends⟩
    exact (List.mem_append.mp hm).elim (h.moments m) (hvalue.moments m)

end Attempt

/-! ### Decision variables -/

/-- Reading a variable from a batch fails for its columns, not for a sample. -/
theorem Variable.input_failsOnly {v : Variable} {batch : Table} {error : EvalError}
    (h : v.input batch = .error error) : error.FailsOnly P := by
  unfold Variable.input at h
  split at h <;> split at h <;> cases h <;> exact EvalError.failsOnly_missingVariable _

theorem bindVariables_failsOnly {batch : Table} {env : Environment} {table : Table}
    {decisions : List Variable} {error : EvalError}
    (h : bindVariables batch env table decisions = .error error) : error.FailsOnly P := by
  induction decisions generalizing env table with
  | nil => cases h
  | cons v decisions ih =>
    rw [bindVariables] at h
    split at h
    · next error' hinput =>
      cases h
      exact Variable.input_failsOnly hinput
    · split at h
      · cases h
        exact EvalError.failsOnly_table _
      · exact ih h

/-! ### Fields -/

/-- The failures of a field are those of its expression. An objective without one has none. -/
theorem Field.failsOnly {field : Field} (h : ∀ e ∈ field.expr?, e.FailsOnly P) :
    field.FailsOnly P := by
  rcases field.expr?_cases with ⟨e, he⟩ | ⟨c, rfl⟩ | ⟨hnone, hconstant⟩
  · refine ⟨fun env policy c hc f hf ↦ ?_, fun env policy error herror f hf ↦ ?_⟩
    · rw [contribute_of_expr? he, map_eq_ok_iff] at hc
      obtain ⟨⟨column, failures⟩, hsettle, rfl⟩ := hc
      exact h e he _ f (.inl (Policy.mem_notes_of_settle hsettle hf))
    · subst hf
      rw [contribute_of_expr? he, map_eq_error_iff] at herror
      exact h e he _ f (Policy.mem_notes_or_of_settle herror)
  · refine ⟨fun env policy c' hc f hf ↦ ?_, fun env policy error herror ↦ ?_⟩
    · cases hc
      cases hf
    · cases herror
  · refine ⟨fun env policy c hc ↦ ?_, fun env policy error herror f hf ↦ ?_⟩
    · rw [contribute_of_no_expr? hnone hconstant] at hc
      cases hc
    · rw [contribute_of_no_expr? hnone hconstant] at herror
      cases herror
      cases hf

/-! ### Runs -/

/-- Failures that are put on record come on top of those that were there. -/
theorem recordFailures_failsOnly (stage : Stage) {soFar : Evaluation} {failures : List Failure}
    (hsoFar : soFar.FailsOnly P) (h : ∀ f ∈ failures, P f) :
    (recordFailures stage soFar failures).FailsOnly P id := by
  induction failures generalizing soFar with
  | nil => exact Attempt.failsOnly_succeed hsoFar
  | cons failure failures ih =>
    rw [List.forall_mem_cons] at h
    have hrecord : (soFar.record failure).FailsOnly P := by
      intro f hf
      rw [Evaluation.failures_record] at hf
      rcases List.mem_append.mp hf with hf | hf
      · exact hsoFar f hf
      · exact List.mem_singleton.mp hf ▸ h.1
    have hmoment : Moment.FailsOnly P ⟨.rowFailed stage failure, soFar.record failure⟩ := by
      refine ⟨fun f hf ↦ ?_, hrecord⟩
      cases hf
      exact h.1
    have hfirst : Attempt.FailsOnly P id
        ⟨[⟨.rowFailed stage failure, soFar.record failure⟩], .ok (soFar.record failure)⟩ :=
      ⟨List.forall_mem_singleton.mpr hmoment, hrecord⟩
    exact hfirst.andThen fun next hnext ↦ ih hnext h.2

/-- The fields of a stage add their failures to those on record. -/
theorem runFields_failsOnly (stage : Stage) (env : Environment) (policy : Policy)
    {soFar : Evaluation} {fields : List Field} (hsoFar : soFar.FailsOnly P)
    (h : ∀ field ∈ fields, field.FailsOnly P) :
    (runFields stage env policy soFar fields).FailsOnly P Prod.fst := by
  induction fields generalizing soFar with
  | nil => exact Attempt.failsOnly_succeed hsoFar
  | cons field fields ih =>
    rw [List.forall_mem_cons] at h
    rw [runFields]
    split
    · next error hfield => exact Attempt.failsOnly_fail (h.1.error env policy error hfield)
    · next c hfield =>
      have hrecorded := recordFailures_failsOnly stage hsoFar (h.1.failures env policy c hfield)
      refine hrecorded.andThen fun soFar hsoFar ↦ ?_
      exact (ih hsoFar h.2).andThen fun result hresult ↦ Attempt.failsOnly_succeed hresult

namespace Problem

variable {p : Problem}

theorem runStage_failsOnly (policy : Policy) {progress : Progress} (stage : Stage)
    (h : p.draft.EveryExpr (Expr.FailsOnly P)) (hprogress : progress.soFar.FailsOnly P) :
    (p.runStage policy progress stage).FailsOnly P Progress.soFar := by
  have hfields (field : Field) (hfield : field ∈ p.draft.stageFields stage) : field.FailsOnly P :=
    Field.failsOnly (h field (Draft.mem_fields_of_mem_stageFields hfield))
  refine (runFields_failsOnly stage progress.env policy hprogress hfields).andThen
    fun result hresult ↦ ?_
  -- What is left of the stage only puts columns into the table.
  dsimp only
  split
  · exact Attempt.failsOnly_fail (EvalError.failsOnly_table _)
  · refine ⟨fun m hm ↦ ?_, hresult⟩
    dsimp only at hm
    split at hm
    · cases hm
    · cases List.mem_singleton.mp hm
      refine ⟨fun f hf ↦ ?_, hresult⟩
      cases hf

/-- A property of all failures on record survives any number of stages. -/
theorem runStages_failsOnly (policy : Policy) {progress : Progress} (stages : List Stage)
    (h : p.draft.EveryExpr (Expr.FailsOnly P)) (hprogress : progress.soFar.FailsOnly P) :
    (p.runStages policy progress stages).FailsOnly P Progress.soFar := by
  induction stages generalizing progress with
  | nil => exact Attempt.failsOnly_succeed hprogress
  | cons stage stages ih =>
    exact (runStage_failsOnly policy stage h hprogress).andThen fun next hnext ↦ ih hnext

/-- A run starts with no failures on record. -/
theorem run_failsOnly (h : p.draft.EveryExpr (Expr.FailsOnly P)) (batch : Table) (plan : Plan) :
    (p.run batch plan).FailsOnly P id := by
  unfold run
  split
  · next error hstart =>
    unfold start at hstart
    split at hstart
    · next hbound =>
      cases hstart
      exact Attempt.failsOnly_fail (bindVariables_failsOnly hbound)
    · cases hstart
  · next progress hstart =>
    have hprogress : progress.soFar.FailsOnly P := by
      rw [Evaluation.FailsOnly, failures_start hstart]
      exact List.forall_mem_nil _
    exact (runStages_failsOnly plan.policy plan.last.upTo h hprogress).andThen
      fun last hlast ↦ Attempt.failsOnly_succeed hlast

end Problem

/-! ### Observers -/

/-- All failures that an observed evaluation tells of have the property: those it reports, those on
record in its result, and the one that it may end in. -/
structure ObservedFailsOnly (P : Failure → Prop)
    (observed : List Event × Except EvalError Evaluation) : Prop where
  events : ∀ event ∈ observed.1, ∀ f ∈ event.failure?, P f
  result : ∀ result, observed.2 = .ok result → result.FailsOnly P
  error : ∀ error, observed.2 = .error error → error.FailsOnly P

/-- What an answer makes of a moment has the failures of the moment. -/
theorem Moment.FailsOnly.answered {m : Moment} (h : m.FailsOnly P) (action : Action) :
    ObservedFailsOnly P ([m.event], m.answered action) := by
  refine ⟨List.forall_mem_singleton.mpr h.event, fun result hresult ↦ ?_, fun error herror ↦ ?_⟩
  · rw [Moment.eq_of_answered_eq_ok hresult]
    exact h.soFar
  · obtain ⟨stage, failure, hevent, rfl⟩ := Moment.exists_of_answered_eq_error herror
    rintro f ⟨⟩
    exact h.event failure (by rw [hevent]; rfl)

/-- An observer sees moments of the run, and its answer ends the evaluation in one of them. -/
theorem Observer.watch_failsOnly (observer : Observer) {outcome : Except EvalError Evaluation}
    {moments : List Moment} (earlier : List Event) (houtcome : ObservedFailsOnly P ([], outcome))
    (h : ∀ m ∈ moments, m.FailsOnly P) :
    ObservedFailsOnly P (observer.watch outcome earlier moments) := by
  induction moments generalizing earlier with
  | nil => exact houtcome
  | cons m moments ih =>
    rw [List.forall_mem_cons] at h
    unfold watch
    split
    · exact h.1.answered _
    · have hlater := ih (m.event :: earlier) h.2
      exact ⟨List.forall_mem_cons.mpr ⟨h.1.event, hlater.events⟩, hlater.result, hlater.error⟩

/-- What holds of every failure of the expressions of a problem holds of every failure that an
evaluation of the problem tells of. -/
theorem Problem.evaluateObserved_failsOnly {p : Problem}
    (h : p.draft.EveryExpr (Expr.FailsOnly P)) (batch : Table) (plan : Plan)
    (observer : Observer) : ObservedFailsOnly P (p.evaluateObserved batch plan observer) := by
  have hrun := run_failsOnly h batch plan
  have houtcome : ObservedFailsOnly P ([], (p.run batch plan).result) :=
    ⟨fun _ hmem ↦ absurd hmem List.not_mem_nil, fun _ hresult ↦ hrun.ends.of_ok hresult,
      fun _ herror ↦ hrun.ends.of_error herror⟩
  exact observer.watch_failsOnly [] houtcome hrun.moments

end Tradeoff
