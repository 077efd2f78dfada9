import Tradeoff.Proofs.Evaluation.Moments
import Tradeoff.Proofs.Evaluation.Scope

/-!
# Cutting an evaluation off

There are two ways to evaluate a problem only up to a stage: the stage can be the last one of the
plan, or an observer can answer its completion. They come to the same
(`Problem.evaluate_cutOff`).

Both rest on one fact: a run through more stages begins with the run through fewer. So its moments
begin with those of the shorter run, of which the last is the completion of the last stage
(`Problem.exists_notes_upTo`), and the table and the failures of a run are only ever added to
(`Problem.prefixOf_runStages`).
-/

namespace Tradeoff

/-! ### Stages -/

/-- The stages up to a later stage begin with those up to an earlier one. -/
theorem Stage.upTo_prefix_of_mem {s t : Stage} (h : s ∈ t.upTo) : s.upTo <+: t.upTo := by
  revert h
  cases t <;> cases s <;> decide

theorem Stage.not_mem_before (s : Stage) : s ∉ s.before := by
  cases s <;> decide

/-! ### Results that continue others -/

/-- One result is the beginning of another: its columns and its failures come first there. -/
structure Evaluation.PrefixOf (part whole : Evaluation) : Prop where
  columns : part.table.columns.entries <+: whole.table.columns.entries
  failures : part.failures <+: whole.failures

theorem Evaluation.PrefixOf.refl (result : Evaluation) : result.PrefixOf result :=
  ⟨List.prefix_rfl, List.prefix_rfl⟩

theorem Evaluation.PrefixOf.trans {part middle whole : Evaluation} (h : part.PrefixOf middle)
    (h' : middle.PrefixOf whole) : part.PrefixOf whole :=
  ⟨h.columns.trans h'.columns, h.failures.trans h'.failures⟩

namespace Problem

variable {p : Problem} {batch : Table} {policy : Policy} {progress next last : Progress}
  {s t : Stage} {stages : List Stage}

theorem failures_of_advance {cs : List Contribution} (h : p.advance progress s cs = .ok next) :
    next.soFar.failures = progress.soFar.failures ++ cs.flatMap (·.failures) := by
  unfold advance at h
  split at h
  · cases h
  · cases h
    simp [completed, Evaluation.failures, Evaluation.recordAll]

/-- A stage only adds to the table and to the failures. -/
theorem prefixOf_runStage (h : (p.runStage policy progress s).result = .ok next) :
    progress.soFar.PrefixOf next.soFar := by
  obtain ⟨cs, -, hadvance⟩ := runStage_eq_ok_iff.mp h
  refine ⟨?_, _, (failures_of_advance hadvance).symm⟩
  unfold advance at hadvance
  split at hadvance
  · cases hadvance
  · next table hinsert =>
    cases hadvance
    exact ⟨_, (Table.entries_of_insertAll hinsert).symm⟩

theorem prefixOf_runStages (h : (p.runStages policy progress stages).result = .ok last) :
    progress.soFar.PrefixOf last.soFar := by
  induction stages generalizing progress with
  | nil =>
    cases h
    exact Evaluation.PrefixOf.refl _
  | cons stage stages ih =>
    rw [runStages_cons] at h
    obtain ⟨next, hnext, hlast⟩ := bind_eq_ok_iff.mp h
    exact (prefixOf_runStage hnext).trans (ih hlast)

/-! ### A shorter run -/

/-- The moments of an evaluation are those of its stages. -/
theorem notes_run {start : Progress} (hstart : p.start batch = .ok start) (plan : Plan) :
    (p.run batch plan).notes = (p.runStages plan.policy start plan.last.upTo).notes := by
  rw [run, hstart]
  show ((p.runStages plan.policy start plan.last.upTo).andThen _).notes = _
  generalize p.runStages plan.policy start plan.last.upTo = attempt
  obtain ⟨notes, error | value⟩ := attempt
  · rfl
  · exact List.append_nil _

/-- The moments of a run up to a stage that has fields. The last of them is the completion of the
stage, and it is the only one. -/
theorem exists_notes_upTo (hlast : (p.runStages policy progress s.upTo).result = .ok last)
    (hfields : p.draft.stageFields s ≠ []) :
    ∃ before, (p.runStages policy progress s.upTo).notes =
        before ++ [⟨.stageCompleted s last.soFar.table, last.soFar⟩] ∧
      ∀ m ∈ before, ∀ table, m.event ≠ .stageCompleted s table := by
  obtain ⟨reached, hreached, hstage⟩ := runStages_upTo_eq_ok_iff.mp hlast
  obtain ⟨cs, hcs, hadvance⟩ := runStage_eq_ok_iff.mp hstage
  have hcompletion : p.completion s last =
      [⟨.stageCompleted s last.soFar.table, last.soFar⟩] := by
    rw [completion, if_neg (by simpa using hfields)]
  refine ⟨(p.runStages policy progress s.before).notes ++
    (recordFailures s reached.soFar (cs.flatMap (·.failures))).notes, ?_, ?_⟩
  · rw [Stage.upTo, runStages_append_eq, Attempt.notes_andThen_of_ok hreached, runStages,
      Attempt.notes_andThen_of_ok hstage, runStage_of_advance hcs hadvance,
      Attempt.notes_andThen_of_ok (result_recordFailures s _ _), hcompletion, List.append_assoc,
      List.append_assoc]
    rfl
  · intro m hm table heq
    rcases List.mem_append.mp hm with hearlier | hfailed
    -- The moments of earlier stages are about these, and `s` is none of them.
    · have hstage := stage_mem_of_mem_runStages hearlier
      rw [heq] at hstage
      exact s.not_mem_before hstage
    · obtain ⟨f, recorded, rfl⟩ := exists_of_mem_recordFailures hfailed
      cases heq

/-! ### Two ways to end a run -/

/-- If the evaluation through a stage gives a result, so does the evaluation through every stage
before it, and the table and the failures of the one begin with those of the other.

If a stage `s` has fields and the evaluation through it gives a result, then the evaluation through
a later stage completes `s` with the table of that result. An observer that has answered
nothing before and then answers this, whatever the answer, ends the evaluation with that result,
only that it is marked as stopped; in particular the same samples are feasible. -/
theorem evaluate_cutOff (p : Problem) (batch : Table) (policy : Policy) {s t : Stage}
    (hst : s ∈ t.upTo) :
    (∀ whole, p.evaluate batch ⟨policy, t⟩ = .ok whole →
      ∃ part, p.evaluate batch ⟨policy, s⟩ = .ok part ∧
        part.table.columns.entries <+: whole.table.columns.entries ∧
        part.failures <+: whole.failures) ∧
    ∀ part, p.evaluate batch ⟨policy, s⟩ = .ok part → p.draft.stageFields s ≠ [] →
      ∃ before later, (p.evaluateObserved batch ⟨policy, t⟩ .silent).1 =
          before ++ .stageCompleted s part.table :: later ∧
        (∀ table, .stageCompleted s table ∉ before) ∧
        ∀ (observer : Observer) (action : Action), observer.SilentOn [] before →
          observer before.reverse (.stageCompleted s part.table) = some action →
          ∃ stopped, p.evaluateObserved batch ⟨policy, t⟩ observer =
              (before ++ [.stageCompleted s part.table], .ok stopped) ∧
            stopped.table = part.table ∧ stopped.failures = part.failures ∧
            stopped.status = .stopped ∧
            ∀ tolerance, stopped.feasible? tolerance = part.feasible? tolerance := by
  obtain ⟨rest, hrest⟩ := Stage.upTo_prefix_of_mem hst
  refine ⟨fun whole hwhole ↦ ?_, fun part hpart hfields ↦ ?_⟩
  · obtain ⟨start, last, hstart, hlast, rfl⟩ := evaluate_eq_ok_iff.mp hwhole
    rw [← hrest, runStages_append] at hlast
    obtain ⟨reached, hreached, hlater⟩ := bind_eq_ok_iff.mp hlast
    have hprefix := prefixOf_runStages hlater
    exact ⟨reached.soFar, evaluate_eq_ok_iff.mpr ⟨start, reached, hstart, hreached, rfl⟩,
      hprefix.columns, hprefix.failures⟩
  · obtain ⟨start, reached, hstart, hreached, rfl⟩ := evaluate_eq_ok_iff.mp hpart
    obtain ⟨before, hbefore, hfirst⟩ := exists_notes_upTo hreached hfields
    have hnotes : (p.run batch ⟨policy, t⟩).notes =
        before ++ ⟨.stageCompleted s reached.soFar.table, reached.soFar⟩ ::
          (p.runStages policy reached rest).notes := by
      rw [notes_run hstart, ← hrest, runStages_append_eq,
        Attempt.notes_andThen_of_ok hreached, hbefore, List.append_assoc]
      rfl
    refine ⟨before.map Moment.event, (p.runStages policy reached rest).notes.map Moment.event,
      ?_, ?_, fun observer action hsilent hanswer ↦ ?_⟩
    · rw [events_silent, hnotes, List.map_append, List.map_cons]
    · intro table hmem
      obtain ⟨m, hm, heq⟩ := List.mem_map.mp hmem
      exact hfirst m hm table heq
    · rw [evaluateObserved_of_answer hnotes hsilent hanswer]
      exact ⟨{ reached.soFar with status := .stopped }, rfl, rfl, rfl, rfl, fun _ ↦ rfl⟩

end Problem

/-- The observer that gives an answer to the completion of a stage, and no other answer. -/
def Observer.answering (action : Action) (s : Stage) : Observer := fun _ event ↦
  match event with
  | .rowFailed _ _ => none
  | .stageCompleted r _ => if r = s then some action else none

theorem Observer.silentOn_answering {action : Action} {s : Stage} {events : List Event}
    (h : ∀ table, .stageCompleted s table ∉ events) (earlier : List Event) :
    (answering action s).SilentOn earlier events := by
  induction events generalizing earlier with
  | nil => trivial
  | cons event events ih =>
    refine ⟨?_, ih (fun table hmem ↦ h table (List.mem_cons_of_mem _ hmem)) _⟩
    cases event with
    | rowFailed r f => rfl
    | stageCompleted r table =>
      refine if_neg ?_
      rintro rfl
      exact h table List.mem_cons_self

/-- Ended after its objectives, the small problem has no column of its constraint. -/
theorem smallProblem_evaluate_cutOff :
    Stage.objectives ∈ Stage.scalarizations.upTo ∧
      ∃ part stopped, smallProblem.evaluate smallBatch ⟨.perRow, .objectives⟩ = .ok part ∧
        part.table.symbols = ["x", "v[1]", "v[2]", "f", "f_min"] ∧
        (smallProblem.evaluateObserved smallBatch ⟨.perRow, .scalarizations⟩
          (.answering .abort .objectives)).2 = .ok stopped ∧
        stopped.table = part.table ∧ stopped.failures = part.failures ∧
        stopped.status = .stopped := by
  have hmem : Stage.objectives ∈ Stage.scalarizations.upTo := by decide
  have hsymbols : (smallProblem.evaluate smallBatch ⟨.perRow, .objectives⟩).toOption.map
      (·.table.symbols) = some ["x", "v[1]", "v[2]", "f", "f_min"] := by decide +kernel
  refine ⟨hmem, ?_⟩
  rcases hpart : smallProblem.evaluate smallBatch ⟨.perRow, .objectives⟩ with error | part
  · rw [hpart] at hsymbols
    cases hsymbols
  · rw [hpart] at hsymbols
    obtain ⟨before, later, -, hfirst, hended⟩ :=
      (smallProblem.evaluate_cutOff smallBatch .perRow hmem).2 part hpart (by decide)
    obtain ⟨stopped, hstopped, htable, hfailures, hstatus, -⟩ :=
      hended (.answering .abort .objectives) .abort (Observer.silentOn_answering hfirst []) rfl
    exact ⟨part, stopped, rfl, Option.some.inj hsymbols, by rw [hstopped], htable, hfailures,
      hstatus⟩

end Tradeoff
