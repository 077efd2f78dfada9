import Tradeoff.Evaluation.Observed
import Tradeoff.Proofs.Evaluation.RowRun

/-!
# Failing fast

Both policies go through the same evaluation until a sample fails; then one of them ends it and the
other puts the failure on record. What the two make of an expression is told by the same attempt
(`Expr.computeColumn_eq`). So failing fast is the evaluation with confined failures, cut short at
the first of them (`Attempt.escalated`). An observer that makes every failure an error cuts it short
in the same way.

There is one exception: after a failure an expression may still turn out to have a fault that is no
sample's. Then failing fast ends in the failure, and confining failures in the fault. So a run that
fails if failures are confined also fails fast, but not always in the same error.
`Attempt.Escalates` says this of two attempts. It is kept by sequences (`Attempt.Escalates.andThen`)
and so by fields, stages and runs; `Problem.evaluate_failFast` tells what it means for problems.
-/

namespace Tradeoff

variable {α β : Type}

/-! ### Failures as errors -/

/-- The value if nothing failed, and otherwise the first failure as an error. -/
def unlessFailed (failures : List Failure) (value : α) : Except EvalError α :=
  match failures with
  | [] => .ok value
  | f :: _ => .error (.failure f)

/-- Settled by failing fast, an attempt ends in the first failure that the other policy reports. -/
theorem Policy.settle_failFast_of_ok {a : Attempt Failure α} {value : α} {failures : List Failure}
    (h : perRow.settle a = .ok (value, failures)) :
    failFast.settle a = unlessFailed failures (value, failures) := by
  obtain ⟨notes, error | result⟩ := a
  · cases h
  · cases h
    cases notes <;> rfl

/-- An attempt that fails with failures confined fails fast as well. -/
theorem Policy.settle_failFast_of_error {a : Attempt Failure α} {error : EvalError}
    (h : perRow.settle a = .error error) : ∃ error', failFast.settle a = .error error' := by
  obtain ⟨notes, error' | result⟩ := a
  · cases notes <;> exact ⟨_, rfl⟩
  · cases h

namespace Field

variable {env : Environment} {field : Field}

/-- If a field contributes with failures confined, failing fast it contributes the same unless there
were failures. The first of them is its error then. -/
theorem contribute_failFast_of_ok {c : Contribution} (h : field.contribute env .perRow = .ok c) :
    field.contribute env .failFast = unlessFailed c.failures c := by
  rcases field.expr?_cases with ⟨e, hexpr⟩ | ⟨constant, rfl⟩ | ⟨hexpr, hno⟩
  · rw [contribute_of_expr? hexpr] at h ⊢
    obtain ⟨⟨column, failures⟩, hsettle, rfl⟩ := map_eq_ok_iff.mp h
    rw [Policy.settle_failFast_of_ok hsettle]
    cases failures <;> rfl
  · cases h
    rfl
  · rw [contribute_of_no_expr? hexpr hno] at h
    cases h

/-- If a field does not contribute, neither does it failing fast. -/
theorem contribute_failFast_of_error {error : EvalError}
    (h : field.contribute env .perRow = .error error) :
    ∃ error', field.contribute env .failFast = .error error' := by
  rcases field.expr?_cases with ⟨e, hexpr⟩ | ⟨constant, rfl⟩ | ⟨hexpr, hno⟩
  · rw [contribute_of_expr? hexpr] at h ⊢
    obtain ⟨error', hsettle⟩ := Policy.settle_failFast_of_error (map_eq_error_iff.mp h)
    exact ⟨error', by rw [hsettle]; rfl⟩
  · cases h
  · exact ⟨_, contribute_of_no_expr? hexpr hno env .failFast⟩

end Field

/-! ### Cutting an attempt short -/

/-- The failure that a moment reports, if it reports one. -/
def Moment.failure? (m : Moment) : Option Failure :=
  match m.event with
  | .rowFailed _ failure => some failure
  | .stageCompleted _ _ => none

/-- The failures that moments report. -/
def reported (moments : List Moment) : List Failure := moments.filterMap Moment.failure?

namespace Attempt

/-- The moments before the first failure, and the result unless there is one. -/
def cutShort (result : Except EvalError α) : List Moment → Attempt Moment α
  | [] => ⟨[], result⟩
  | m :: moments =>
    match m.failure? with
    | some failure => fail (.failure failure)
    | none => ⟨m :: (cutShort result moments).notes, (cutShort result moments).result⟩

/-- The attempt, if its first failure is an error. -/
def escalated (a : Attempt Moment α) : Attempt Moment α := cutShort a.result a.notes

/-- A failure that is noted ends everything. -/
theorem cutShort_of_failure {m : Moment} {failure : Failure} (h : m.failure? = some failure)
    (result : Except EvalError α) (moments : List Moment) :
    cutShort result (m :: moments) = fail (.failure failure) := by
  simp only [cutShort, h]

theorem cutShort_of_no_failure {m : Moment} (h : m.failure? = none)
    (result : Except EvalError α) (moments : List Moment) :
    cutShort result (m :: moments) =
      ⟨m :: (cutShort result moments).notes, (cutShort result moments).result⟩ := by
  simp only [cutShort, h]

/-- Two attempts in a row are cut short in the first one if this has failures, and else in the
second. -/
theorem cutShort_append (value : α) (moments : List Moment) (next : Attempt Moment β) :
    cutShort next.result (moments ++ next.notes) =
      (cutShort (.ok value) moments).andThen fun _ ↦ next.escalated := by
  induction moments with
  | nil => exact (succeed_andThen value fun _ ↦ next.escalated).symm
  | cons m moments ih =>
    rcases hm : m.failure? with _ | failure
    · rw [List.cons_append, cutShort_of_no_failure hm, cutShort_of_no_failure hm, ih]
      rcases cutShort (.ok value) moments with ⟨notes, error | value⟩ <;> rfl
    · rw [List.cons_append, cutShort_of_failure hm, cutShort_of_failure hm]
      rfl

/-- Cut short, an attempt has its own value or the first failure for an error. -/
theorem result_cutShort (value : α) (moments : List Moment) :
    (cutShort (.ok value) moments).result = unlessFailed (reported moments) value := by
  induction moments with
  | nil => rfl
  | cons m moments ih =>
    rcases hm : m.failure? with _ | failure
    · rw [cutShort_of_no_failure hm, ih, reported, reported, List.filterMap_cons_none hm]
    · rw [cutShort_of_failure hm, reported, List.filterMap_cons_some hm]
      rfl

/-- What is left after cutting has no failures. -/
theorem failure?_of_mem_cutShort {result : Except EvalError α} {moments : List Moment} {m : Moment}
    (h : m ∈ (cutShort result moments).notes) : m.failure? = none := by
  induction moments with
  | nil => exact absurd h List.not_mem_nil
  | cons first moments ih =>
    rcases hfirst : first.failure? with _ | failure
    · rw [cutShort_of_no_failure hfirst] at h
      rcases List.mem_cons.mp h with rfl | h
      · exact hfirst
      · exact ih h
    · rw [cutShort_of_failure hfirst] at h
      exact absurd h List.not_mem_nil

/-- Without failures nothing is cut off. -/
theorem cutShort_eq_self {result : Except EvalError α} {moments : List Moment}
    (h : ∀ m ∈ moments, m.failure? = none) : cutShort result moments = ⟨moments, result⟩ := by
  induction moments with
  | nil => rfl
  | cons m moments ih =>
    rw [cutShort_of_no_failure (h m List.mem_cons_self),
      ih fun next hnext ↦ h next (List.mem_cons_of_mem _ hnext)]

/-! ### Escalation -/

/-- `strict` is what becomes of `lenient` if failures are errors: an error if it ends in one, and
otherwise the same up to the first failure. -/
def Escalates (lenient strict : Attempt Moment α) : Prop :=
  match lenient.result with
  | .error _ => ∃ error, strict.result = .error error
  | .ok _ => strict = lenient.escalated

/-- If confining failures ends in an error, only that there is an error counts. -/
theorem escalates_of_error {lenient strict : Attempt Moment α} {error : EvalError}
    (h : lenient.result = .error error) :
    lenient.Escalates strict ↔ ∃ error', strict.result = .error error' := by
  rw [Escalates, h]

/-- If confining failures ends well, failing fast is this, cut short at the first failure. -/
theorem escalates_of_ok {lenient strict : Attempt Moment α} {value : α}
    (h : lenient.result = .ok value) : lenient.Escalates strict ↔ strict = lenient.escalated := by
  rw [Escalates, h]

/-- What notes no failures escalates to itself. -/
theorem escalates_self {a : Attempt Moment α} (h : ∀ m ∈ a.notes, m.failure? = none) :
    a.Escalates a := by
  obtain ⟨notes, error | value⟩ := a
  · exact ⟨error, rfl⟩
  · exact (cutShort_eq_self h).symm

theorem escalates_succeed (value : α) :
    (succeed value : Attempt Moment α).Escalates (succeed value) :=
  escalates_self fun _ hmem ↦ absurd hmem List.not_mem_nil

/-- An attempt that is cut short has the value of the whole or ends in its first failure. -/
theorem escalated_cases {a : Attempt Moment α} {value : α} (h : a.result = .ok value) :
    a.escalated.result = .ok value ∨ ∃ f, a.escalated.result = .error (.failure f) := by
  have hresult : a.escalated.result = unlessFailed (reported a.notes) value := by
    rw [escalated, h, result_cutShort]
  rw [hresult]
  cases reported a.notes with
  | nil => exact Or.inl rfl
  | cons f rest => exact Or.inr ⟨f, rfl⟩

/-- Of a sequence, either the first part is cut short or the second. -/
theorem escalated_andThen {a : Attempt Moment α} {value : α} (h : a.result = .ok value)
    (next : α → Attempt Moment β) :
    (a.andThen next).escalated = a.escalated.andThen fun _ ↦ (next value).escalated := by
  obtain ⟨notes, result⟩ := a
  cases h
  exact cutShort_append value notes (next value)

/-- Attempts in a row escalate step by step: once the first part failed, the second has no part in
it. -/
theorem Escalates.andThen {lenient strict : Attempt Moment α} {next next' : α → Attempt Moment β}
    (h : lenient.Escalates strict) (hnext : ∀ value, (next value).Escalates (next' value)) :
    (lenient.andThen next).Escalates (strict.andThen next') := by
  rcases hlenient : lenient.result with error | value
  · obtain ⟨error', herror⟩ := (escalates_of_error hlenient).mp h
    have hfails : (lenient.andThen next).result = .error error := by
      rw [result_andThen, hlenient]
      rfl
    refine (escalates_of_error hfails).mpr ⟨error', ?_⟩
    rw [result_andThen, herror]
    rfl
  · obtain rfl := (escalates_of_ok hlenient).mp h
    have hboth : (lenient.andThen next).result = (next value).result := by
      rw [result_andThen, hlenient]
      rfl
    rcases hlast : (next value).result with error | last
    -- Whether the first part fails or only the second: an error remains an error.
    · obtain ⟨error', herror⟩ := (escalates_of_error hlast).mp (hnext value)
      refine (escalates_of_error (hboth.trans hlast)).mpr ?_
      rw [result_andThen]
      rcases escalated_cases hlenient with hvalue | ⟨f, hfailure⟩
      · exact ⟨error', by rw [hvalue]; exact herror⟩
      · exact ⟨.failure f, by rw [hfailure]; rfl⟩
    · refine (escalates_of_ok (hboth.trans hlast)).mpr ?_
      rw [escalated_andThen hlenient, ← (escalates_of_ok hlast).mp (hnext value)]
      refine andThen_congr fun value' hvalue' ↦ ?_
      rcases escalated_cases hlenient with hvalue | ⟨f, hfailure⟩
      · cases hvalue'.symm.trans hvalue
        rfl
      · cases hvalue'.symm.trans hfailure

end Attempt

/-! ### Runs -/

/-- Putting failures on record, or ending in the first of them. -/
theorem recordFailures_escalates (stage : Stage) (soFar : Evaluation) (failures : List Failure) :
    (recordFailures stage soFar failures).Escalates ⟨[], unlessFailed failures soFar⟩ := by
  rw [Attempt.Escalates, result_recordFailures]
  cases failures <;> rfl

/-- The fields of a stage escalate one after the other. -/
theorem runFields_escalates (stage : Stage) (env : Environment) (soFar : Evaluation)
    (fields : List Field) :
    (runFields stage env .perRow soFar fields).Escalates
      (runFields stage env .failFast soFar fields) := by
  induction fields generalizing soFar with
  | nil => exact Attempt.escalates_succeed _
  | cons field fields ih =>
    rw [runFields, runFields]
    rcases hfield : field.contribute env .perRow with error | c
    · obtain ⟨error', herror'⟩ := Field.contribute_failFast_of_error hfield
      exact (Attempt.escalates_of_error rfl).mpr ⟨error', by rw [herror']; rfl⟩
    · have hrest (soFar : Evaluation) := (ih soFar).andThen fun rest ↦
        Attempt.escalates_succeed (rest.1, c.bindings ++ rest.2)
      have hboth := (recordFailures_escalates stage soFar c.failures).andThen hrest
      rw [Field.contribute_failFast_of_ok hfield]
      cases hfailures : c.failures with
      | nil =>
        simp only [hfailures, unlessFailed] at hboth ⊢
        exact hboth
      | cons f rest =>
        simp only [hfailures] at hboth ⊢
        exact hboth

/-- The failures that are noted on the way are those that are added to the result. -/
def Attempt.Reports (a : Attempt Moment α) (before : List Failure) (after : α → List Failure) :
    Prop := ∀ value, a.result = .ok value → after value = before ++ reported a.notes

/-- Two attempts in a row report what each reports, the second on top of the first. -/
theorem Attempt.Reports.andThen {a : Attempt Moment α} {next : α → Attempt Moment β}
    {before : List Failure} {between : α → List Failure} {after : β → List Failure}
    (h : a.Reports before between) (hnext : ∀ value, (next value).Reports (between value) after) :
    (a.andThen next).Reports before after := by
  obtain ⟨notes, error | value⟩ := a
  · intro last hlast
    cases hlast
  · intro last hlast
    have hbetween : between value = before ++ reported notes := h value rfl
    rw [hnext value last hlast, hbetween, andThen_ok, reported, reported, reported,
      List.filterMap_append, List.append_assoc]

/-- Failures are reported as they are put on record. -/
theorem recordFailures_reports (stage : Stage) (soFar : Evaluation) (failures : List Failure) :
    (recordFailures stage soFar failures).Reports soFar.failures Evaluation.failures := by
  induction failures generalizing soFar with
  | nil =>
    intro last hlast
    cases hlast
    exact (List.append_nil _).symm
  | cons f failures ih =>
    have hfirst : Attempt.Reports
        (⟨[⟨.rowFailed stage f, soFar.record f⟩], .ok (soFar.record f)⟩ : Attempt Moment Evaluation)
        soFar.failures Evaluation.failures := by
      intro next hnext
      cases hnext
      exact Evaluation.failures_record soFar f
    exact hfirst.andThen ih

/-- The fields of a stage report their failures in order. -/
theorem runFields_reports (stage : Stage) (env : Environment) (policy : Policy) (soFar : Evaluation)
    (fields : List Field) :
    (runFields stage env policy soFar fields).Reports soFar.failures
      fun last ↦ last.1.failures := by
  induction fields generalizing soFar with
  | nil =>
    intro last hlast
    cases hlast
    exact (List.append_nil _).symm
  | cons field fields ih =>
    rw [runFields]
    rcases field.contribute env policy with error | c
    · intro last hlast
      cases hlast
    · refine (recordFailures_reports stage soFar c.failures).andThen fun soFar ↦ ?_
      refine (ih soFar).andThen fun rest last hlast ↦ ?_
      cases hlast
      exact (List.append_nil _).symm

namespace Problem

variable (p : Problem)

/-- A stage escalates as its fields do. Its columns and bindings are written under both policies in
the same way. -/
theorem runStage_escalates (progress : Progress) (stage : Stage) :
    (p.runStage .perRow progress stage).Escalates (p.runStage .failFast progress stage) := by
  rw [runStage, runStage]
  refine (runFields_escalates stage progress.env progress.soFar _).andThen fun last ↦ ?_
  refine Attempt.escalates_self fun m hmem ↦ ?_
  dsimp only at hmem
  split at hmem
  · exact absurd hmem List.not_mem_nil
  · split at hmem
    · exact absurd hmem List.not_mem_nil
    · rw [List.mem_singleton.mp hmem]
      rfl

/-- A stage reports the failures of its fields. -/
theorem runStage_reports (policy : Policy) (progress : Progress) (stage : Stage) :
    (p.runStage policy progress stage).Reports progress.soFar.failures
      fun next ↦ next.soFar.failures := by
  rw [runStage]
  refine (runFields_reports stage progress.env policy progress.soFar _).andThen
    fun last next hnext ↦ ?_
  dsimp only at hnext ⊢
  split at hnext
  · cases hnext
  · cases hnext
    split <;> exact (List.append_nil _).symm

/-- Stages escalate one after the other. -/
theorem runStages_escalates (progress : Progress) (stages : List Stage) :
    (p.runStages .perRow progress stages).Escalates (p.runStages .failFast progress stages) := by
  induction stages generalizing progress with
  | nil => exact Attempt.escalates_succeed _
  | cons stage stages ih => exact (p.runStage_escalates progress stage).andThen ih

/-- Stages report their failures one after the other. -/
theorem runStages_reports (policy : Policy) (progress : Progress) (stages : List Stage) :
    (p.runStages policy progress stages).Reports progress.soFar.failures
      fun last ↦ last.soFar.failures := by
  induction stages generalizing progress with
  | nil =>
    intro last hlast
    cases hlast
    exact (List.append_nil _).symm
  | cons stage stages ih => exact (p.runStage_reports policy progress stage).andThen ih

/-- Failing fast is the run with confined failures, with the first of them as an error. -/
theorem run_escalates (batch : Table) (last : Stage) :
    (p.run batch ⟨.perRow, last⟩).Escalates (p.run batch ⟨.failFast, last⟩) := by
  rw [run, run]
  rcases p.start batch with error | start
  · exact (Attempt.escalates_of_error rfl).mpr ⟨error, rfl⟩
  · exact (p.runStages_escalates start last.upTo).andThen fun progress ↦
      Attempt.escalates_succeed progress.soFar

/-- The failures of a result are those that its run has noted. -/
theorem run_reports (batch : Table) (plan : Plan) :
    (p.run batch plan).Reports [] Evaluation.failures := by
  rw [run]
  rcases hstart : p.start batch with error | start
  · intro last hlast
    cases hlast
  · have hstages := p.runStages_reports plan.policy start plan.last.upTo
    rw [failures_start hstart] at hstages
    refine hstages.andThen fun progress last hlast ↦ ?_
    cases hlast
    exact (List.append_nil _).symm

end Problem

/-! ### Observers -/

namespace Observer

/-- An observer that makes every failure an error sees to it that the first one ends the run. -/
theorem watch_cutShort {observer : Observer}
    (h : ∀ earlier stage f, observer earlier (.rowFailed stage f) = some .abort)
    (result : Except EvalError Evaluation) (earlier : List Event) (moments : List Moment) :
    (observer.watch result earlier moments).2 =
      (observer.watch (Attempt.cutShort result moments).result earlier
        (Attempt.cutShort result moments).notes).2 := by
  induction moments generalizing earlier with
  | nil => rfl
  | cons m moments ih =>
    obtain ⟨event, soFar⟩ := m
    cases event with
    | rowFailed stage f =>
      have hm : Moment.failure? ⟨.rowFailed stage f, soFar⟩ = some f := rfl
      rw [Attempt.cutShort_of_failure hm, watch, h]
      rfl
    | stageCompleted stage table =>
      have hm : Moment.failure? ⟨.stageCompleted stage table, soFar⟩ = none := rfl
      rw [Attempt.cutShort_of_no_failure hm, watch, watch]
      cases observer earlier (.stageCompleted stage table) with
      | none => exact ih _
      | some action => rfl

/-- An observer that answers failures only has no influence where there are none. -/
theorem watch_of_no_failure {observer : Observer}
    (h : ∀ earlier stage table, observer earlier (.stageCompleted stage table) = none)
    {moments : List Moment} (hmoments : ∀ m ∈ moments, m.failure? = none)
    (result : Except EvalError Evaluation) (earlier : List Event) :
    (observer.watch result earlier moments).2 = result := by
  induction moments generalizing earlier with
  | nil => rfl
  | cons m moments ih =>
    have hfirst := hmoments m List.mem_cons_self
    obtain ⟨event, soFar⟩ := m
    cases event with
    | rowFailed stage f => cases hfirst
    | stageCompleted stage table =>
      rw [watch, h]
      exact ih (fun next hnext ↦ hmoments next (List.mem_cons_of_mem _ hnext)) _

end Observer

/-! ### Problems -/

/-- Where the evaluation with confined failures gives a result, failing fast gives the same result
if it has no failure, and the first failure as an error if it has some. The same becomes of the
evaluation with confined failures under an observer that makes every failure an error, whatever it
answers to completed stages. Where confining failures does not help, failing fast does not
either. -/
theorem Problem.evaluate_failFast (p : Problem) (batch : Table) (last : Stage) :
    (∀ error, p.evaluate batch ⟨.perRow, last⟩ = .error error →
      ∃ error', p.evaluate batch ⟨.failFast, last⟩ = .error error') ∧
    ∀ result, p.evaluate batch ⟨.perRow, last⟩ = .ok result →
      (result.failures = [] → p.evaluate batch ⟨.failFast, last⟩ = .ok result) ∧
      (∀ f rest, result.failures = f :: rest →
        p.evaluate batch ⟨.failFast, last⟩ = .error (.failure f)) ∧
      ∀ observer : Observer,
        (∀ earlier stage f, observer earlier (.rowFailed stage f) = some .abort) →
        (p.evaluateObserved batch ⟨.perRow, last⟩ observer).2 =
          (p.evaluateObserved batch ⟨.failFast, last⟩ observer).2 ∧
        ((∀ earlier stage table, observer earlier (.stageCompleted stage table) = none) →
          (p.evaluateObserved batch ⟨.perRow, last⟩ observer).2 =
            p.evaluate batch ⟨.failFast, last⟩) := by
  have hrun := p.run_escalates batch last
  refine ⟨fun error herror ↦ ?_, fun result hresult ↦ ?_⟩
  · have hlenient : (p.run batch ⟨.perRow, last⟩).result = .error error := herror
    exact (Attempt.escalates_of_error hlenient).mp hrun
  · have hlenient : (p.run batch ⟨.perRow, last⟩).result = .ok result := hresult
    have hstrictRun := (Attempt.escalates_of_ok hlenient).mp hrun
    have hreported : result.failures = reported (p.run batch ⟨.perRow, last⟩).notes :=
      p.run_reports batch ⟨.perRow, last⟩ result hlenient
    have hstrict : p.evaluate batch ⟨.failFast, last⟩ = unlessFailed result.failures result := by
      rw [evaluate, hstrictRun, Attempt.escalated, hlenient, Attempt.result_cutShort, hreported]
    refine ⟨fun hnone ↦ ?_, fun f rest hsome ↦ ?_, fun observer habort ↦ ?_⟩
    · rw [hstrict, hnone]
      rfl
    · rw [hstrict, hsome]
      rfl
    · have hobserved : (p.evaluateObserved batch ⟨.perRow, last⟩ observer).2 =
          (p.evaluateObserved batch ⟨.failFast, last⟩ observer).2 := by
        simp only [evaluateObserved, hstrictRun]
        exact Observer.watch_cutShort habort _ _ _
      refine ⟨hobserved, fun hsilent ↦ hobserved.trans ?_⟩
      refine Observer.watch_of_no_failure hsilent (fun m hmem ↦ ?_) _ _
      rw [hstrictRun] at hmem
      exact Attempt.failure?_of_mem_cutShort hmem

/-- The observer that makes every failure of a sample an error. -/
def Observer.aborting : Observer := fun _ event ↦
  match event with
  | .rowFailed _ _ => some .abort
  | .stageCompleted _ _ => none

/-- One over zero is reported for the second sample, and it is the error of failing fast. -/
theorem quotientProblem_evaluate_failFast :
    ∃ result f, quotientProblem.evaluate quotientBatch ⟨.perRow, .scalarizations⟩ = .ok result ∧
      result.failures = [f] ∧ f.sample = some 1 ∧ f.fault = .divisionByZero ∧
      quotientProblem.evaluate quotientBatch ⟨.failFast, .scalarizations⟩ = .error (.failure f) ∧
      (quotientProblem.evaluateObserved quotientBatch ⟨.perRow, .scalarizations⟩ .aborting).2 =
        .error (.failure f) := by
  have hok : (quotientProblem.evaluate quotientBatch ⟨.perRow, .scalarizations⟩).toOption.map
      Evaluation.failures = some [⟨some "f", "1 / x", some 1, .divisionByZero⟩] := by
    decide +kernel
  rcases hresult : quotientProblem.evaluate quotientBatch ⟨.perRow, .scalarizations⟩ with
    error | result
  · rw [hresult] at hok
    cases hok
  · rw [hresult] at hok
    have hfailures := Option.some.inj hok
    obtain ⟨-, hfirst, hobserver⟩ :=
      (quotientProblem.evaluate_failFast quotientBatch .scalarizations).2 result hresult
    have hfast := hfirst _ _ hfailures
    have hobserved := (hobserver .aborting fun _ _ _ ↦ rfl).2 fun _ _ _ ↦ rfl
    exact ⟨result, _, rfl, hfailures, rfl, rfl, hfast, hobserved.trans hfast⟩

end Tradeoff
