import Tradeoff.Proofs.Evaluation.Escalation

/-!
# Moments of an evaluation

An observer has no influence on an evaluation before it answers, and its first answer ends it
(`Observer.watch_cases`, `Problem.evaluateObserved_of_answer`). So what becomes of an observed
evaluation is decided by one moment of the run, and this module tells which moments there are.

A stage notes one moment for each failure that its fields contribute and, if it has fields at all,
one when it is completed (`Problem.runStage_of_advance`). The moments of a run are those of its
stages in order (`Problem.exists_of_mem_runStages`). At each of them the table and the failures are
those that the events up to there report (`Problem.runStages_tells`).
-/

namespace Tradeoff

variable {α β : Type}

/-! ### Events -/

namespace Event

/-- The stage that an event is about. -/
def stage : Event → Stage
  | rowFailed s _ => s
  | stageCompleted s _ => s

/-- The failure that an event reports, if it reports one. -/
def failure? : Event → Option Failure
  | rowFailed _ failure => some failure
  | stageCompleted _ _ => none

/-- The table of the completed stage, if the event reports one. -/
def table? : Event → Option Table
  | rowFailed _ _ => none
  | stageCompleted _ table => some table

end Event

/-! ### Observers -/

namespace Moment

variable {m : Moment}

theorem answered_stopEarly : m.answered .stopEarly = .ok { m.soFar with status := .stopped } := by
  obtain ⟨event, soFar⟩ := m
  cases event <;> rfl

/-- Aborting at a failure ends the evaluation in this failure. -/
theorem answered_abort_of_failed {s : Stage} {f : Failure} (h : m.event = .rowFailed s f) :
    m.answered .abort = .error (.failure f) := by
  obtain ⟨event, soFar⟩ := m
  cases h
  rfl

/-- Whatever the answer is, a result is the one so far, marked as stopped. -/
theorem eq_of_answered_eq_ok {action : Action} {result : Evaluation}
    (h : m.answered action = .ok result) : result = { m.soFar with status := .stopped } := by
  unfold answered at h
  split at h
  · cases h
  · exact (Except.ok.inj h).symm

/-- Only a failure can be made an error, and the error is this failure. -/
theorem exists_of_answered_eq_error {action : Action} {error : EvalError}
    (h : m.answered action = .error error) :
    ∃ s f, m.event = .rowFailed s f ∧ error = .failure f := by
  unfold answered at h
  split at h
  · next s f hevent => exact ⟨s, f, hevent, (Except.error.inj h).symm⟩
  · cases h

end Moment

namespace Observer

/-- The observer answers none of some events when it is shown them one after another. It has seen
those in `earlier` before, the latest of them first. -/
def SilentOn (observer : Observer) (earlier : List Event) : List Event → Prop
  | [] => True
  | event :: events =>
    observer earlier event = none ∧ observer.SilentOn (event :: earlier) events

/-- The first answer of an observer ends what it watches. -/
theorem watch_of_answer {observer : Observer} {outcome : Except EvalError Evaluation}
    {earlier : List Event} {before later : List Moment} {m : Moment} {action : Action}
    (hsilent : observer.SilentOn earlier (before.map Moment.event))
    (hanswer : observer ((before.map Moment.event).reverse ++ earlier) m.event = some action) :
    observer.watch outcome earlier (before ++ m :: later) =
      (before.map Moment.event ++ [m.event], m.answered action) := by
  induction before generalizing earlier with
  | nil =>
    rw [List.nil_append, watch]
    simp only [List.map_nil, List.reverse_nil, List.nil_append] at hanswer
    rw [hanswer]
    rfl
  | cons first before ih =>
    obtain ⟨hfirst, hrest⟩ := hsilent
    rw [List.map_cons, List.reverse_cons, List.append_assoc] at hanswer
    rw [List.cons_append, watch, hfirst]
    simp only [ih hrest hanswer]
    rfl

/-- A silent observer has not answered to the last event either. -/
theorem SilentOn.of_append {observer : Observer} {earlier before : List Event} {event : Event}
    (h : observer.SilentOn earlier (before ++ [event])) :
    observer (before.reverse ++ earlier) event = none := by
  induction before generalizing earlier with
  | nil => exact h.1
  | cons first before ih =>
    have hrest := ih h.2
    rwa [List.append_cons, ← List.reverse_cons] at hrest

/-- Either an observer has answered no event, or the last one that it has seen. -/
theorem watch_cases {observer : Observer} {outcome result : Except EvalError Evaluation}
    {earlier events : List Event} {moments : List Moment}
    (h : observer.watch outcome earlier moments = (events, result)) :
    (observer.SilentOn earlier events ∧ result = outcome) ∨
      ∃ before m action, m ∈ moments ∧ events = before ++ [m.event] ∧
        observer (before.reverse ++ earlier) m.event = some action ∧
        result = m.answered action := by
  induction moments generalizing earlier events with
  | nil =>
    obtain ⟨rfl, rfl⟩ := Prod.mk.inj h
    exact .inl ⟨trivial, rfl⟩
  | cons m moments ih =>
    rw [watch] at h
    split at h
    · next action haction =>
      obtain ⟨rfl, rfl⟩ := Prod.mk.inj h
      exact .inr ⟨[], m, action, List.mem_cons_self, rfl, haction, rfl⟩
    · next hnone =>
      obtain ⟨rfl, rfl⟩ := Prod.mk.inj h
      rcases ih rfl with ⟨hsilent, houtcome⟩ | ⟨before, last, action, hlast, hevents, haction, hres⟩
      · exact .inl ⟨⟨hnone, hsilent⟩, houtcome⟩
      · refine .inr ⟨m.event :: before, last, action, List.mem_cons_of_mem _ hlast, ?_, ?_, hres⟩
        · rw [hevents, List.cons_append]
        · rwa [List.reverse_cons, List.append_assoc]

end Observer

namespace Problem

variable {p : Problem} {batch : Table} {plan : Plan}

/-- An observer that never answers sees the events of all moments. -/
theorem events_silent :
    (p.evaluateObserved batch plan .silent).1 = (p.run batch plan).notes.map Moment.event := by
  rw [evaluateObserved, Observer.watch_silent]

/-- What becomes of an evaluation is decided at the first moment that the observer answers. -/
theorem evaluateObserved_of_answer {observer : Observer} {before later : List Moment} {m : Moment}
    {action : Action} (hnotes : (p.run batch plan).notes = before ++ m :: later)
    (hsilent : observer.SilentOn [] (before.map Moment.event))
    (hanswer : observer (before.map Moment.event).reverse m.event = some action) :
    p.evaluateObserved batch plan observer =
      (before.map Moment.event ++ [m.event], m.answered action) := by
  rw [evaluateObserved, hnotes]
  exact Observer.watch_of_answer hsilent (by rwa [List.append_nil])

end Problem

/-! ### Attempts -/

namespace Attempt

variable {ν : Type} {a : Attempt ν α}

/-- The notes of attempts in a row are those of both. -/
theorem notes_andThen_of_ok {value : α} (h : a.result = .ok value) (next : α → Attempt ν β) :
    (a.andThen next).notes = a.notes ++ (next value).notes := by
  obtain ⟨notes, result⟩ := a
  cases h
  rfl

/-- A note is one of the first part, or of the second if there is one. -/
theorem mem_notes_andThen {next : α → Attempt ν β} {note : ν} :
    note ∈ (a.andThen next).notes ↔
      note ∈ a.notes ∨ ∃ value, a.result = .ok value ∧ note ∈ (next value).notes := by
  obtain ⟨notes, error | value⟩ := a
  · simp [andThen_error]
  · simp [andThen_ok]

end Attempt

/-! ### Recorded failures -/

/-- Failures are noted in two parts as they are in one. -/
theorem recordFailures_append (stage : Stage) (soFar : Evaluation) (failures more : List Failure) :
    recordFailures stage soFar (failures ++ more) =
      (recordFailures stage soFar failures).andThen fun next ↦ recordFailures stage next more := by
  induction failures generalizing soFar with
  | nil =>
    rw [List.nil_append, recordFailures]
    exact (Attempt.succeed_andThen soFar fun soFar ↦ recordFailures stage soFar more).symm
  | cons failure failures ih =>
    rw [List.cons_append, recordFailures, recordFailures, Attempt.andThen_assoc]
    simp only [ih]

/-- Fields that contribute note the failures that they contribute, in their order. -/
theorem runFields_of_contributions {stage : Stage} {env : Environment} {policy : Policy}
    {fields : List Field} {cs : List Contribution} (h : contributions env policy fields = .ok cs)
    (soFar : Evaluation) :
    runFields stage env policy soFar fields =
      (recordFailures stage soFar (cs.flatMap (·.failures))).andThen fun soFar ↦
        .succeed (soFar, cs.flatMap (·.bindings)) := by
  induction fields generalizing cs soFar with
  | nil =>
    cases h
    rfl
  | cons field fields ih =>
    obtain ⟨c, rest, hfield, hfields, rfl⟩ := contributions_cons_eq_ok_iff.mp h
    rw [runFields, hfield, List.flatMap_cons, List.flatMap_cons, recordFailures_append,
      Attempt.andThen_assoc]
    simp only [ih hfields, Attempt.andThen_assoc, Attempt.succeed_andThen]

/-- The events of recorded failures report these failures. -/
theorem events_recordFailures (stage : Stage) (soFar : Evaluation) (failures : List Failure) :
    (recordFailures stage soFar failures).notes.map Moment.event =
      failures.map (.rowFailed stage) := by
  induction failures generalizing soFar with
  | nil => rfl
  | cons failure failures ih =>
    rw [recordFailures, Attempt.andThen_ok, List.map_append, ih]
    rfl

/-- While failures are recorded nothing else changes. -/
theorem exists_of_mem_recordFailures {stage : Stage} {soFar : Evaluation} {failures : List Failure}
    {m : Moment} (h : m ∈ (recordFailures stage soFar failures).notes) :
    ∃ f recorded, m = ⟨.rowFailed stage f, soFar.recordAll recorded⟩ := by
  induction failures generalizing soFar with
  | nil => cases h
  | cons failure failures ih =>
    rw [recordFailures, Attempt.andThen_ok] at h
    rcases List.mem_append.mp h with hfirst | hrest
    · exact ⟨failure, [failure], List.mem_singleton.mp hfirst⟩
    · obtain ⟨f, recorded, rfl⟩ := ih hrest
      exact ⟨f, failure :: recorded, by
        rw [← List.singleton_append, Evaluation.recordAll_append]; rfl⟩

/-- What the fields of a stage note are failures, also if a field ends the evaluation. -/
theorem exists_of_mem_runFields {stage : Stage} {env : Environment} {policy : Policy}
    {soFar : Evaluation} {fields : List Field} {m : Moment}
    (h : m ∈ (runFields stage env policy soFar fields).notes) :
    ∃ f recorded, m = ⟨.rowFailed stage f, soFar.recordAll recorded⟩ := by
  induction fields generalizing soFar with
  | nil => cases h
  | cons field fields ih =>
    rw [runFields] at h
    split at h
    · cases h
    · next c hcontribute =>
      rcases Attempt.mem_notes_andThen.mp h with hfailed | ⟨next, hnext, hlater⟩
      · exact exists_of_mem_recordFailures hfailed
      · rw [result_recordFailures] at hnext
        obtain rfl := Except.ok.inj hnext
        rcases Attempt.mem_notes_andThen.mp hlater with hfields | ⟨_, _, hnone⟩
        · obtain ⟨f, recorded, rfl⟩ := ih hfields
          exact ⟨f, c.failures ++ recorded, by rw [Evaluation.recordAll_append]⟩
        · cases hnone

/-! ### The moments of a stage -/

namespace Problem

variable {p : Problem} {policy : Policy} {progress next last : Progress} {s : Stage}
  {stages : List Stage} {cs : List Contribution}

/-- The moment at which a stage is completed; a stage without fields has none. -/
def completion (p : Problem) (s : Stage) (next : Progress) : List Moment :=
  if (p.draft.stageFields s).isEmpty then []
  else [⟨.stageCompleted s next.soFar.table, next.soFar⟩]

/-- The moments of a stage that can be completed: its failures, and its completion unless it has no
fields. -/
theorem runStage_of_advance
    (hcs : contributions progress.env policy (p.draft.stageFields s) = .ok cs)
    (hnext : p.advance progress s cs = .ok next) :
    p.runStage policy progress s =
      (recordFailures s progress.soFar (cs.flatMap (·.failures))).andThen fun _ ↦
        ⟨p.completion s next, .ok next⟩ := by
  have hrecorded := result_recordFailures s progress.soFar (cs.flatMap (·.failures))
  rw [runStage, runFields_of_contributions hcs, Attempt.andThen_assoc]
  refine Attempt.andThen_congr fun soFar hsoFar ↦ ?_
  cases hrecorded.symm.trans hsoFar
  rw [Attempt.succeed_andThen]
  unfold advance at hnext
  split at hnext
  · cases hnext
  · next table hinsert =>
    cases hnext
    simp only [bindingColumns] at hinsert
    simp only [Evaluation.recordAll, hinsert, completion, completed]

/-- What a stage notes are failures and, once it has a result, its completion. -/
theorem mem_runStage_cases {m : Moment} (hm : m ∈ (p.runStage policy progress s).notes) :
    (∃ f recorded, m = ⟨.rowFailed s f, progress.soFar.recordAll recorded⟩) ∨
      ∃ next, (p.runStage policy progress s).result = .ok next ∧
        m = ⟨.stageCompleted s next.soFar.table, next.soFar⟩ := by
  unfold runStage at hm ⊢
  rcases Attempt.mem_notes_andThen.mp hm with hfields | ⟨⟨soFar, bindings⟩, hfields, hcompletion⟩
  · exact .inl (exists_of_mem_runFields hfields)
  · refine .inr ?_
    rw [Attempt.result_andThen, hfields, Except.bind]
    dsimp only at hcompletion ⊢
    split at hcompletion
    · cases hcompletion
    · dsimp only at hcompletion
      split at hcompletion
      · cases hcompletion
      · exact ⟨_, rfl, List.mem_singleton.mp hcompletion⟩

/-- The moments of a stage are events of this stage. -/
theorem stage_of_mem_runStage {m : Moment} (hm : m ∈ (p.runStage policy progress s).notes) :
    m.event.stage = s := by
  rcases mem_runStage_cases hm with ⟨f, recorded, rfl⟩ | ⟨next, -, rfl⟩ <;> rfl

/-! ### The moments of a run -/

/-- A run through stages is a run through the first of them, and then through the others. -/
theorem runStages_append_eq (progress : Progress) (stages more : List Stage) :
    p.runStages policy progress (stages ++ more) =
      (p.runStages policy progress stages).andThen fun next ↦ p.runStages policy next more := by
  induction stages generalizing progress with
  | nil => exact (Attempt.succeed_andThen progress fun next ↦ p.runStages policy next more).symm
  | cons stage stages ih =>
    rw [List.cons_append, runStages, runStages, Attempt.andThen_assoc]
    simp only [ih]

/-- Every moment of a run is one of a stage that the run comes to, also if the run does not get to
its end. -/
theorem exists_of_mem_runStages {m : Moment}
    (hm : m ∈ (p.runStages policy progress stages).notes) :
    ∃ front r rest reached, stages = front ++ r :: rest ∧
      (p.runStages policy progress front).result = .ok reached ∧
      m ∈ (p.runStage policy reached r).notes := by
  induction stages generalizing progress with
  | nil => cases hm
  | cons stage stages ih =>
    rw [runStages] at hm
    rcases Attempt.mem_notes_andThen.mp hm with hfirst | ⟨next, hnext, hrest⟩
    · exact ⟨[], stage, stages, progress, rfl, rfl, hfirst⟩
    · obtain ⟨front, r, rest, reached, rfl, hfront, hreached⟩ := ih hrest
      refine ⟨stage :: front, r, rest, reached, rfl, ?_, hreached⟩
      rw [runStages_cons, hnext]
      exact hfront

/-- The moments of a run are events of its stages. -/
theorem stage_mem_of_mem_runStages {m : Moment}
    (hm : m ∈ (p.runStages policy progress stages).notes) : m.event.stage ∈ stages := by
  obtain ⟨front, r, rest, reached, rfl, -, hmem⟩ := exists_of_mem_runStages hm
  rw [stage_of_mem_runStage hmem]
  exact List.mem_append_right _ List.mem_cons_self

end Problem

/-! ### What a moment shows -/

/-- The table and the failures of a result. -/
def Evaluation.shown (result : Evaluation) : Table × List Failure := (result.table, result.failures)

/-- The table and the failures after an event: a failure is added, or the table is replaced by that
of the completed stage. -/
def Event.update (shown : Table × List Failure) : Event → Table × List Failure
  | rowFailed _ failure => (shown.1, shown.2 ++ [failure])
  | stageCompleted _ table => (table, shown.2)

/-- After events the failures are those before and then those reported, and the table is the last
one reported, if there is one. -/
theorem foldl_update (shown : Table × List Failure) (events : List Event) :
    events.foldl Event.update shown =
      ((events.filterMap Event.table?).getLastD shown.1,
        shown.2 ++ events.filterMap Event.failure?) := by
  induction events generalizing shown with
  | nil => simp
  | cons event events ih =>
    rw [List.foldl_cons, ih]
    cases event with
    | rowFailed stage failure =>
      rw [List.filterMap_cons_none (by rfl), List.filterMap_cons_some (by rfl)]
      simp [Event.update]
    | stageCompleted stage table =>
      rw [List.filterMap_cons_some (by rfl), List.filterMap_cons_none (by rfl),
        List.getLastD_cons]
      rfl

/-- At each moment the result so far is told by the events up to there. -/
def Told (shown : Table × List Failure) : List Moment → Prop
  | [] => True
  | m :: moments => m.soFar.shown = m.event.update shown ∧ Told (m.event.update shown) moments

/-- Moments are told in two parts. -/
theorem told_append {shown : Table × List Failure} {moments more : List Moment} :
    Told shown (moments ++ more) ↔
      Told shown moments ∧ Told ((moments.map Moment.event).foldl Event.update shown) more := by
  induction moments generalizing shown with
  | nil => simp [Told]
  | cons m moments ih =>
    rw [List.cons_append, Told, ih, Told, and_assoc]
    rfl

/-- An attempt whose notes are told by their events from a result on, and lead to its own. -/
def Attempt.Tells (a : Attempt Moment α) (before : Evaluation) (after : α → Evaluation) : Prop :=
  ∀ value, a.result = .ok value → Told before.shown a.notes ∧
    (a.notes.map Moment.event).foldl Event.update before.shown = (after value).shown

/-- Attempts in a row tell what each tells, one after the other. -/
theorem Attempt.Tells.andThen {a : Attempt Moment α} {next : α → Attempt Moment β}
    {before : Evaluation} {between : α → Evaluation} {after : β → Evaluation}
    (h : a.Tells before between) (hnext : ∀ value, a.result = .ok value →
      (next value).Tells (between value) after) :
    (a.andThen next).Tells before after := by
  obtain ⟨notes, error | value⟩ := a
  · intro last hlast
    cases hlast
  · intro last hlast
    obtain ⟨htold, hbetween⟩ := h value rfl
    obtain ⟨hrest, hafter⟩ := hnext value rfl last hlast
    rw [andThen_ok, told_append, List.map_append, List.foldl_append, hbetween]
    exact ⟨⟨htold, hrest⟩, hafter⟩

/-- Failures that go on record are told one by one. -/
theorem recordFailures_tells (stage : Stage) (soFar : Evaluation) (failures : List Failure) :
    (recordFailures stage soFar failures).Tells soFar id := by
  induction failures generalizing soFar with
  | nil =>
    intro last hlast
    cases hlast
    exact ⟨trivial, rfl⟩
  | cons f failures ih =>
    rw [recordFailures]
    refine Attempt.Tells.andThen ?_ fun next _ ↦ ih next
    intro next hnext
    cases hnext
    have hshown : (soFar.record f).shown = (Event.rowFailed stage f).update soFar.shown :=
      Prod.ext rfl (Evaluation.failures_record soFar f)
    exact ⟨⟨hshown, trivial⟩, hshown.symm⟩

namespace Problem

variable {p : Problem} {policy : Policy} {progress : Progress} {s : Stage} {stages : List Stage}

/-- A stage without fields changes neither the table nor the failures. -/
theorem shown_advance_of_no_fields {next : Progress}
    (h : p.advance progress s [] = .ok next) : next.soFar.shown = progress.soFar.shown := by
  cases h
  rfl

/-- A stage tells its failures, and its table when it is completed. -/
theorem runStage_tells : (p.runStage policy progress s).Tells progress.soFar Progress.soFar := by
  rcases hresult : (p.runStage policy progress s).result with error | next
  · intro last hlast
    cases hresult.symm.trans hlast
  obtain ⟨cs, hcs, hadvance⟩ := runStage_eq_ok_iff.mp hresult
  rw [runStage_of_advance hcs hadvance]
  refine (recordFailures_tells s progress.soFar _).andThen fun soFar hsoFar last hlast ↦ ?_
  cases hlast
  cases (result_recordFailures s _ _).symm.trans hsoFar
  rw [completion]
  split
  · next hempty =>
    rw [List.isEmpty_iff.mp hempty] at hcs
    cases hcs
    exact ⟨trivial, (shown_advance_of_no_fields hadvance).symm⟩
  -- The failures of the completed stage are those recorded before.
  · have hshown : next.soFar.shown =
        (Event.stageCompleted s next.soFar.table).update
          (progress.soFar.recordAll (cs.flatMap (·.failures))).shown := by
      unfold advance at hadvance
      split at hadvance
      · cases hadvance
      · cases hadvance
        rfl
    exact ⟨⟨hshown, trivial⟩, hshown.symm⟩

/-- Stages are told one after the other. -/
theorem runStages_tells : (p.runStages policy progress stages).Tells progress.soFar
    Progress.soFar := by
  induction stages generalizing progress with
  | nil =>
    intro last hlast
    cases hlast
    exact ⟨trivial, rfl⟩
  | cons stage stages ih =>
    rw [runStages]
    exact runStage_tells.andThen fun next _ ↦ ih

end Problem

end Tradeoff
