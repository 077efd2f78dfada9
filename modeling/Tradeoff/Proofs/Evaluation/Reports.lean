import Tradeoff.Proofs.Evaluation.CutOff
import Tradeoff.Proofs.Evaluation.Solution

/-!
# What an observer is told

An observer learns everything from the events. An observer that never answers is told of every stage
that has fields: first the failures of its fields, and then the table with all columns up to the
stage (`Problem.stageReport`). Both can be read off the result in the end, because nothing that was
reported changes later.

An observer that answers a failure cuts the stage short in which it occurs. No column of the stage
is in the table then, although all fields before the failing one have been evaluated
(`Problem.evaluateObserved_reports`).
-/

namespace Tradeoff

/-- The stages up to one that is before another are before the other. -/
theorem Stage.upTo_subset_before {r s : Stage} (h : r ∈ s.before) : r.upTo ⊆ s.before := by
  revert h
  cases s <;> cases r <;> decide

/-! ### Parts of a result -/

/-- Columns of equal length are as long as the first of them. -/
theorem size_eq_rowCount {columns : List (String × Array Float)} {rows : Nat}
    (h : ∀ column ∈ columns, column.2.size = rows) :
    ∀ column ∈ columns, column.2.size = rowCount columns := by
  cases columns with
  | nil => exact fun _ hmem ↦ absurd hmem List.not_mem_nil
  | cons first columns =>
    exact fun column hmem ↦ (h column hmem).trans (h first List.mem_cons_self).symm

namespace Table

/-- The columns of a table with some symbols, in the order of the table. -/
def restrict (t : Table) (symbols : List String) : Table where
  columns := ⟨t.columns.entries.filter fun column ↦ column.1 ∈ symbols,
    t.columns.nodup.sublist (List.filter_sublist.map _)⟩
  uniform := size_eq_rowCount fun column hmem ↦ t.uniform column (List.mem_filter.mp hmem).1

variable {t t' : Table} {symbols : List String}

theorem entries_restrict : (t.restrict symbols).columns.entries =
    t.columns.entries.filter fun column ↦ column.1 ∈ symbols := rfl

/-- A restriction has no other symbols. -/
theorem mem_of_mem_symbols_restrict {symbol : String} (h : symbol ∈ (t.restrict symbols).symbols) :
    symbol ∈ symbols := by
  obtain ⟨column, hcolumn, rfl⟩ := List.mem_map.mp h
  exact of_decide_eq_true (List.mem_filter.mp hcolumn).2

theorem restrict_symbols (t : Table) : t.restrict t.symbols = t := by
  refine ext_entries (List.filter_eq_self.mpr fun column hmem ↦ ?_)
  exact decide_eq_true (List.mem_map_of_mem hmem)

/-- Columns that are added are not among those with the symbols of columns there are. -/
theorem restrict_extended (h : t.columns.entries <+: t'.columns.entries)
    (hsymbols : symbols ⊆ t.symbols) : t'.restrict symbols = t.restrict symbols := by
  obtain ⟨added, hadded⟩ := h
  have hnodup := t'.columns.nodup
  rw [← hadded, List.map_append] at hnodup
  refine ext_entries ?_
  rw [entries_restrict, entries_restrict, ← hadded, List.filter_append]
  refine List.append_right_eq_self.mpr (List.filter_eq_nil_iff.mpr fun column hmem hold ↦ ?_)
  exact (List.nodup_append.mp hnodup).2.2 column.1 (hsymbols (of_decide_eq_true hold)) column.1
    (List.mem_map_of_mem hmem) rfl

/-- What has been added to a table is left out again if only its symbols are kept. -/
theorem restrict_extended_symbols (h : t.columns.entries <+: t'.columns.entries)
    (hsymbols : t.symbols = symbols) : t'.restrict symbols = t := by
  subst hsymbols
  rw [restrict_extended h (List.Subset.refl _), restrict_symbols]

end Table

/-- The failures of a result that name one of the fields. -/
def Evaluation.failuresOf (result : Evaluation) (fields : List Field) : List Failure :=
  result.failures.filter fun f ↦ f.field ∈ fields.map fun field ↦ some field.symbol

/-- The symbols of the columns of the decision variables and of the fields of some stages. -/
def Draft.columnsAfter (d : Draft) (stages : List Stage) : List String :=
  d.inputLabels ++ stages.flatMap d.stageClaims

/-- After more stages there are more columns. -/
theorem Draft.columnsAfter_subset {d : Draft} {stages more : List Stage} (h : stages ⊆ more) :
    d.columnsAfter stages ⊆ d.columnsAfter more := by
  intro symbol hmem
  refine List.mem_append.mpr ((List.mem_append.mp hmem).imp id fun hclaim ↦ ?_)
  obtain ⟨s, hs, hsymbol⟩ := List.mem_flatMap.mp hclaim
  exact List.mem_flatMap.mpr ⟨s, h hs, hsymbol⟩

namespace Problem

/-- What is reported of a stage in an evaluation with the result: the failures of its fields, and
then its completion with all columns up to there. A stage without fields is not reported. -/
def stageReport (p : Problem) (result : Evaluation) (s : Stage) : List Event :=
  let fields := p.draft.stageFields s
  if fields.isEmpty then []
  else (result.failuresOf fields).map (.rowFailed s) ++
    [.stageCompleted s (result.table.restrict (p.draft.columnsAfter s.upTo))]

end Problem

/-! ### Failures of stages -/

/-- Failures that all name one of the fields. -/
def NamedBy (fields : List Field) (failures : List Failure) : Prop :=
  ∀ f ∈ failures, ∃ field ∈ fields, f.field = some field.symbol

/-- Failures that name only fields of the selection are all kept. -/
theorem NamedBy.filter_self {fields : List Field} {failures : List Failure}
    (h : NamedBy fields failures) :
    failures.filter (fun f ↦ f.field ∈ fields.map fun field ↦ some field.symbol) = failures := by
  refine List.filter_eq_self.mpr fun f hf ↦ decide_eq_true ?_
  obtain ⟨field, hfield, hname⟩ := h f hf
  exact hname ▸ List.mem_map_of_mem hfield

/-- Failures that name no field of the selection are all left out. -/
theorem NamedBy.filter_other {fields others : List Field} {failures : List Failure}
    (h : NamedBy others failures)
    (hdisjoint : ∀ field ∈ fields, ∀ other ∈ others, field.symbol ≠ other.symbol) :
    failures.filter (fun f ↦ f.field ∈ fields.map fun field ↦ some field.symbol) = [] := by
  refine List.filter_eq_nil_iff.mpr fun f hf hmem ↦ ?_
  obtain ⟨other, hother, hname⟩ := h f hf
  obtain ⟨field, hfield, hsymbol⟩ := List.mem_map.mp (of_decide_eq_true hmem)
  exact hdisjoint field hfield other hother (Option.some.inj (hsymbol.trans hname))

/-- The failures that are contributed name the fields that contribute them. -/
theorem namedBy_contributions {env : Environment} {policy : Policy} {fields : List Field}
    {cs : List Contribution} (h : contributions env policy fields = .ok cs) :
    NamedBy fields (cs.flatMap (·.failures)) := by
  obtain ⟨hall, rfl⟩ := contributions_eq_ok_iff.mp h
  intro f hf
  rw [List.flatMap_map] at hf
  obtain ⟨field, hfield, hmem⟩ := List.mem_flatMap.mp hf
  exact ⟨field, hfield, Field.named_of_contribute (hall field hfield) hmem⟩

namespace Problem

variable {p : Problem} {batch : Table} {policy : Policy} {progress next last : Progress}
  {s : Stage} {stages : List Stage} {cs : List Contribution}

/-- The failures of a run name the fields of its stages. -/
theorem Solved.namedBy (h : p.Solved batch policy stages progress) :
    NamedBy (p.draft.fieldsOf stages) progress.soFar.failures := by
  intro f hf
  rw [h.failures] at hf
  obtain ⟨field, hfield, hmem⟩ := List.mem_flatMap.mp hf
  exact ⟨field, hfield, h.named_of_mem_failures hfield hmem⟩

/-! ### Reports of stages -/

/-- What has been reported of a stage stays true when later stages are completed, and what the next
stage notes is what is reported of it. -/
theorem Solved.stageReport (h : p.Solved batch policy s.before progress)
    (hnext : (p.runStage policy progress s).result = .ok next) :
    (∀ r ∈ s.before, p.stageReport next.soFar r = p.stageReport progress.soFar r) ∧
      (p.runStage policy progress s).notes.map Moment.event = p.stageReport next.soFar s := by
  have hsolved := (h.runStage hnext).1
  have hprefix := prefixOf_runStage hnext
  obtain ⟨cs, hcs, hadvance⟩ := runStage_eq_ok_iff.mp hnext
  have hfailures := failures_of_advance hadvance
  have hearlier := h.namedBy
  have hadded := namedBy_contributions hcs
  have hdisjoint : ∀ field ∈ p.draft.fieldsOf s.before, ∀ other ∈ p.draft.stageFields s,
      field.symbol ≠ other.symbol := by
    have hnodup := hsolved.nodup_symbols
    rw [Draft.fieldsOf_upTo, List.map_append] at hnodup
    exact fun field hfield other hother ↦ (List.nodup_append.mp hnodup).2.2 _
      (List.mem_map_of_mem hfield) _ (List.mem_map_of_mem hother)
  constructor
  · intro r hr
    have hfields : next.soFar.failuresOf (p.draft.stageFields r) =
        progress.soFar.failuresOf (p.draft.stageFields r) := by
      rw [Evaluation.failuresOf, hfailures, List.filter_append, hadded.filter_other,
        List.append_nil]
      · rfl
      · exact fun field hfield ↦ hdisjoint field (Draft.mem_fieldsOf.mpr ⟨r, hr, hfield⟩)
    have hcolumns : next.soFar.table.restrict (p.draft.columnsAfter r.upTo) =
        progress.soFar.table.restrict (p.draft.columnsAfter r.upTo) := by
      refine Table.restrict_extended hprefix.columns ?_
      rw [h.symbols]
      exact Draft.columnsAfter_subset (Stage.upTo_subset_before hr)
    rw [Problem.stageReport, hfields, hcolumns]
    rfl
  · rw [runStage_of_advance hcs hadvance, Attempt.notes_andThen_of_ok (result_recordFailures s _ _),
      List.map_append, events_recordFailures, Problem.stageReport, completion]
    have hfields : next.soFar.failuresOf (p.draft.stageFields s) = cs.flatMap (·.failures) := by
      rw [Evaluation.failuresOf, hfailures, List.filter_append, hadded.filter_self,
        hearlier.filter_other, List.nil_append]
      exact fun field hfield other hother heq ↦ hdisjoint other hother field hfield heq.symm
    have hcolumns : next.soFar.table.restrict (p.draft.columnsAfter s.upTo) = next.soFar.table :=
      Table.restrict_extended_symbols List.prefix_rfl hsolved.symbols
    rw [hfields, hcolumns]
    split
    · next hempty =>
      rw [List.isEmpty_iff.mp hempty] at hcs
      cases hcs
      rfl
    · rfl

/-! ### Reports of runs -/

/-- What a run notes is what is reported of its stages in an evaluation with its result. -/
theorem Solved.reports {start : Progress} (h : p.Solved batch policy [] start) (s : Stage)
    (last : Progress) (hrun : (p.runStages policy start s.upTo).result = .ok last) :
    (p.runStages policy start s.upTo).notes.map Moment.event =
      s.upTo.flatMap (p.stageReport last.soFar) := by
  refine (Stage.upTo_induction (motive := fun stages ↦ ∀ last,
    (p.runStages policy start stages).result = .ok last → p.Solved batch policy stages last ∧
      (p.runStages policy start stages).notes.map Moment.event =
        stages.flatMap (p.stageReport last.soFar)) ?_ ?_ s last hrun).2
  · intro last hrun
    cases hrun
    exact ⟨h, rfl⟩
  · intro t ih last hrun
    obtain ⟨reached, hbefore, hstage⟩ := runStages_upTo_eq_ok_iff.mp hrun
    obtain ⟨hreached, hevents⟩ := ih reached hbefore
    obtain ⟨hearlier, hlast⟩ := hreached.stageReport hstage
    refine ⟨(hreached.runStage hstage).1, ?_⟩
    have hnotes : (p.runStages policy start t.upTo).notes =
        (p.runStages policy start t.before).notes ++ (p.runStage policy reached t).notes := by
      rw [Stage.upTo, runStages_append_eq, Attempt.notes_andThen_of_ok hbefore, runStages,
        Attempt.notes_andThen_of_ok hstage]
      exact congrArg _ (List.append_nil _)
    rw [hnotes, List.map_append, hevents, hlast, Stage.upTo, List.flatMap_append,
      List.flatMap_singleton, List.flatMap_def, List.flatMap_def, List.map_congr_left hearlier]

/-- A run that comes to a stage starts from the columns of the variables. -/
theorem Solved.table_of_start {start : Progress} (h : p.Solved batch policy [] start)
    (hrun : (p.runStages policy start stages).result = .ok last) :
    start.soFar.table = last.soFar.table.restrict p.draft.inputLabels :=
  (Table.restrict_extended_symbols (prefixOf_runStages hrun).columns
    (h.symbols.trans (List.append_nil _))).symm

/-- The columns up to the stages before a stage are not those of the stage. -/
theorem not_mem_columnsAfter_before {symbol : String} (h : symbol ∈ p.draft.stageClaims s) :
    symbol ∉ p.draft.columnsAfter s.before := by
  have hnodup := p.nodup_columns s
  rw [Stage.upTo, List.flatMap_append, ← List.append_assoc, List.flatMap_singleton] at hnodup
  exact fun hmem ↦ (List.nodup_append.mp hnodup).2.2 symbol hmem symbol h rfl

/-- Just before a failure of a stage the table has the columns up to the stages before it. -/
theorem Solved.table_of_failed {start : Progress} (h : p.Solved batch policy [] start)
    (hrun : (p.runStages policy start s.upTo).result = .ok last) {m : Moment}
    (hm : m ∈ (p.runStages policy start s.upTo).notes) {r : Stage} {f : Failure}
    (hevent : m.event = .rowFailed r f) :
    m.soFar.table = last.soFar.table.restrict (p.draft.columnsAfter r.before) := by
  obtain ⟨front, r', rest, reached, hsplit, hreached, hmem⟩ := exists_of_mem_runStages hm
  obtain rfl : r = r' := by
    have hstage := stage_of_mem_runStage hmem
    rw [hevent] at hstage
    exact hstage
  cases Stage.eq_before_of_upTo_eq hsplit
  rw [hsplit, runStages_append, hreached] at hrun
  have hprefix := prefixOf_runStages hrun
  rcases mem_runStage_cases hmem with ⟨f', recorded, rfl⟩ | ⟨next, -, rfl⟩
  · exact (Table.restrict_extended_symbols hprefix.columns
      (h.toConsistent.before policy r reached hreached).symbols).symm
  · cases hevent

end Problem

/-- The failures that moments report are those that their events report. -/
theorem filterMap_failure?_events (moments : List Moment) :
    (moments.map Moment.event).filterMap Event.failure? = reported moments := by
  rw [List.filterMap_map]
  rfl

/-- Every failure that moments report is reported by one of them, after those before it. -/
theorem exists_of_reported {moments : List Moment} {k : Nat} {f : Failure}
    (h : (reported moments)[k]? = some f) :
    ∃ before m later s, moments = before ++ m :: later ∧ m.event = .rowFailed s f ∧
      (reported before).length = k := by
  obtain ⟨hlt, rfl⟩ := List.getElem?_eq_some_iff.mp h
  have hsplit : reported moments =
      (reported moments).take k ++ (reported moments)[k] :: (reported moments).drop (k + 1) := by
    rw [List.getElem_cons_drop, List.take_append_drop]
  obtain ⟨first, second, hmoments, hfirst, hsecond⟩ := List.filterMap_eq_append_iff.mp hsplit
  obtain ⟨skipped, m, later, rfl, hskipped, hm, -⟩ := List.filterMap_eq_cons_iff.mp hsecond
  have hevent : ∃ s, m.event = .rowFailed s (reported moments)[k] := by
    unfold Moment.failure? at hm
    split at hm
    · next s f hf => exact ⟨s, (Option.some.inj hm) ▸ hf⟩
    · cases hm
  obtain ⟨s, hs⟩ := hevent
  refine ⟨first ++ skipped, m, later, s, by rw [hmoments, List.append_assoc], hs, ?_⟩
  have hnone : skipped.filterMap Moment.failure? = [] := List.filterMap_eq_nil_iff.mpr hskipped
  rw [reported, List.filterMap_append, hfirst, hnone, List.append_nil]
  exact List.length_take_of_le (Nat.le_of_lt hlt)

/-- The failures around a moment that reports one. -/
theorem reported_of_failed {before later : List Moment} {m : Moment} {s : Stage} {f : Failure}
    (hevent : m.event = .rowFailed s f) :
    reported (before ++ m :: later) = (reported before ++ [f]) ++ reported later := by
  rw [← filterMap_failure?_events, List.map_append, List.map_cons, hevent, List.filterMap_append,
    List.filterMap_cons_some (by rfl), filterMap_failure?_events, filterMap_failure?_events,
    List.append_assoc]
  rfl

/-! ### Interrupted stages -/

/-- When a failure is reported, the failures are those reported by then, and the table is that of
the stage completed last. -/
theorem Problem.Solved.shown_of_failed {p : Problem} {batch : Table} {policy : Policy}
    {start last : Progress} (h : p.Solved batch policy [] start) {stages : List Stage}
    (hrun : (p.runStages policy start stages).result = .ok last) {before later : List Moment}
    {m : Moment} (hsplit : (p.runStages policy start stages).notes = before ++ m :: later)
    {s : Stage} {f : Failure} (hevent : m.event = .rowFailed s f) :
    m.soFar.failures = reported before ++ [f] ∧
      m.soFar.table = ((before.map Moment.event).filterMap Event.table?).getLastD
        (last.soFar.table.restrict p.draft.inputLabels) := by
  have htold := (runStages_tells last hrun).1
  rw [hsplit, told_append] at htold
  have hshown := htold.2.1
  rw [hevent, foldl_update, filterMap_failure?_events] at hshown
  constructor
  · have hfailures : m.soFar.failures = start.soFar.failures ++ reported before ++ [f] :=
      congrArg Prod.snd hshown
    rw [hfailures, h.failures]
    rfl
  · rw [← h.table_of_start hrun]
    exact congrArg Prod.fst hshown

/-- Suppose that under an observer that never answers the evaluation gives a result. Then the
observer is told of every stage in order (`Problem.stageReport`), and the failures it is told of are
those of the result.

The failure number `k` of the result is reported after `k` others. An observer that has answered
nothing before and then stops the evaluation there gets the failures up to this one and the table of
the stage completed last, or the columns of the variables if there is none; so no column of the
stage of the failure is in it. An observer that aborts the evaluation there gets the failure as an
error. -/
theorem Problem.evaluateObserved_reports (p : Problem) (batch : Table) (plan : Plan)
    {events : List Event} {result : Evaluation}
    (h : p.evaluateObserved batch plan .silent = (events, .ok result)) :
    events = plan.last.upTo.flatMap (p.stageReport result) ∧
    events.filterMap Event.failure? = result.failures ∧
    ∀ k f, result.failures[k]? = some f → ∃ before s later,
      events = before ++ .rowFailed s f :: later ∧
      (before.filterMap Event.failure?).length = k ∧
      ∀ observer : Observer, observer.SilentOn [] before →
        (observer before.reverse (.rowFailed s f) = some .stopEarly →
          ∃ stopped, p.evaluateObserved batch plan observer =
              (before ++ [.rowFailed s f], .ok stopped) ∧
            stopped.failures = result.failures.take (k + 1) ∧
            stopped.status = .stopped ∧
            stopped.table = (before.filterMap Event.table?).getLastD
              (result.table.restrict p.draft.inputLabels) ∧
            ∀ symbol ∈ p.draft.stageClaims s, symbol ∉ stopped.table.symbols) ∧
        (observer before.reverse (.rowFailed s f) = some .abort →
          p.evaluateObserved batch plan observer =
            (before ++ [.rowFailed s f], .error (.failure f))) := by
  have hevents : (p.run batch plan).notes.map Moment.event = events := by
    rw [← events_silent, h]
  have hresult : p.evaluate batch plan = .ok result := by
    rw [← evaluateObserved_silent, h]
  obtain ⟨start, last, hstart, hlast, rfl⟩ := evaluate_eq_ok_iff.mp hresult
  have hsolved := solved_start hstart plan.policy
  have hnotes := notes_run hstart plan
  have hreported : reported (p.run batch plan).notes = last.soFar.failures :=
    (p.run_reports batch plan last.soFar hresult).symm
  subst hevents
  refine ⟨?_, ?_, fun k f hf ↦ ?_⟩
  · rw [hnotes, hsolved.reports plan.last last hlast]
  · rw [filterMap_failure?_events, hreported]
  · rw [← hreported] at hf
    obtain ⟨before, m, later, s, hsplit, hevent, hlength⟩ := exists_of_reported hf
    have hall := hsplit
    rw [hnotes] at hall
    obtain ⟨hfailures, htable⟩ := hsolved.shown_of_failed hlast hall hevent
    have htake : m.soFar.failures = last.soFar.failures.take (k + 1) := by
      rw [hfailures, ← hreported, hsplit, reported_of_failed hevent,
        List.take_left' (by simp [hlength])]
    refine ⟨before.map Moment.event, s, later.map Moment.event, ?_, ?_, fun observer hsilent ↦
      ⟨fun hstop ↦ ?_, fun habort ↦ ?_⟩⟩
    · rw [hsplit, List.map_append, List.map_cons, hevent]
    · rw [filterMap_failure?_events, hlength]
    · rw [← hevent] at hstop ⊢
      rw [evaluateObserved_of_answer hsplit hsilent hstop, Moment.answered_stopEarly]
      refine ⟨_, rfl, htake, rfl, htable, fun symbol hsymbol hmem ↦ ?_⟩
      have hm : m ∈ (p.runStages plan.policy start plan.last.upTo).notes := by
        rw [hall]
        exact List.mem_append_right _ List.mem_cons_self
      rw [hsolved.table_of_failed hlast hm hevent] at hmem
      exact not_mem_columnsAfter_before hsymbol (Table.mem_of_mem_symbols_restrict hmem)
    · rw [← hevent] at habort ⊢
      rw [evaluateObserved_of_answer hsplit hsilent habort, Moment.answered_abort_of_failed hevent]

/-- The observer that stops an evaluation at the first failure of a sample. -/
def Observer.stopping : Observer := fun _ event ↦
  match event with
  | .rowFailed _ _ => some .stopEarly
  | .stageCompleted _ _ => none

/-- One over zero is the only failure, and it is reported before anything else. Whoever stops there
gets the variable without the objective. -/
theorem quotientProblem_evaluateObserved_reports :
    ∃ events result f stopped,
      quotientProblem.evaluateObserved quotientBatch ⟨.perRow, .scalarizations⟩ .silent =
        (events, .ok result) ∧
      result.failures = [f] ∧ f.sample = some 1 ∧
      quotientProblem.evaluateObserved quotientBatch ⟨.perRow, .scalarizations⟩ .stopping =
        ([.rowFailed .objectives f], .ok stopped) ∧
      stopped.failures = [f] ∧ stopped.table = result.table.restrict ["x"] ∧
      "f" ∉ stopped.table.symbols ∧
      quotientProblem.evaluateObserved quotientBatch ⟨.perRow, .scalarizations⟩ .aborting =
        ([.rowFailed .objectives f], .error (.failure f)) := by
  have hok : (quotientProblem.evaluateObserved quotientBatch ⟨.perRow, .scalarizations⟩
      .silent).2.toOption.map Evaluation.failures =
        some [⟨some "f", "1 / x", some 1, .divisionByZero⟩] := by
    decide +kernel
  have hfirst : ((quotientProblem.evaluateObserved quotientBatch ⟨.perRow, .scalarizations⟩
      .silent).1.map fun event ↦ (event.stage, event.failure?.isSome)).head? =
        some (.objectives, true) := by
    decide +kernel
  rcases hrun : quotientProblem.evaluateObserved quotientBatch ⟨.perRow, .scalarizations⟩ .silent
    with ⟨events, error | result⟩
  · rw [hrun] at hok
    cases hok
  · rw [hrun] at hok hfirst
    have hfailures : result.failures = _ := Option.some.inj hok
    obtain ⟨-, -, hinterrupted⟩ :=
      quotientProblem.evaluateObserved_reports quotientBatch ⟨.perRow, .scalarizations⟩ hrun
    obtain ⟨before, s, later, hevents, hlength, hobserver⟩ :=
      hinterrupted 0 _ (by rw [hfailures]; rfl)
    -- The first event is a failure of the objectives, so nothing comes before the first failure.
    obtain ⟨rfl, rfl⟩ : before = [] ∧ s = .objectives := by
      rw [hevents] at hfirst
      cases before with
      | nil => exact ⟨rfl, (Prod.mk.inj (Option.some.inj hfirst)).1⟩
      | cons event before =>
        obtain ⟨f, hf⟩ := Option.isSome_iff_exists.mp (Prod.mk.inj (Option.some.inj hfirst)).2
        rw [List.filterMap_cons_some hf] at hlength
        cases hlength
    obtain ⟨stopped, hstopped, htaken, -, htable, hmissing⟩ :=
      (hobserver .stopping trivial).1 rfl
    refine ⟨events, result, _, stopped, rfl, hfailures, rfl, hstopped, ?_, htable,
      hmissing "f" (by decide), (hobserver .aborting trivial).2 rfl⟩
    rw [htaken, hfailures]
    rfl

end Tradeoff
