import Tradeoff.Proofs.Evaluation.Causes
import Tradeoff.Proofs.Evaluation.Reports

/-!
# Which samples are feasible

A result tells which samples are feasible as soon as its constraints are on record, and these go on
record at the end of their stage. So it depends on the moment at which an evaluation ended whether a
result tells it: after an event the result stands at the end of certain stages (`Event.done`), and
it has on record what these stages leave there (`Evaluation.OnRecord`). That is an invariant of
every moment of a run, also of a run that would have ended in an error later on
(`Problem.onRecord_of_mem_run`).

Once the constraints are on record each of them has a column with a value for every sample, and a
sample is feasible exactly if all these values hold (`Evaluation.OnRecord.exists_feasible`).
`Problem.evaluateObserved_feasible` puts this together for observed evaluations.
-/

namespace Tradeoff

/-! ### Tolerances -/

namespace ConstraintKind

variable {kind : ConstraintKind} {value tolerance tolerance' : Float}

/-- What holds within a tolerance holds within a greater one. -/
theorem isSatisfied_of_le (h : kind.isSatisfied value tolerance) (hle : tolerance ≤ tolerance') :
    kind.isSatisfied value tolerance' := by
  cases kind <;>
    exact decide_eq_true (le_of_le_of_le (of_decide_eq_true h) hle)

theorem isSatisfied_of_isNaN (h : value.isNaN) : kind.isSatisfied value tolerance = false := by
  have hnot {x : Float} (hx : x.isNaN) : ¬x ≤ tolerance := fun hle ↦ by
    rw [(le_iff.mp hle).1] at hx
    cases hx
  cases kind with
  | atMost => exact decide_eq_false (hnot h)
  | equal => exact decide_eq_false (hnot ((isNaN_abs value).trans h))

end ConstraintKind

/-- The constraint holds in a row of a table: the value of its column is at most the tolerance, or
its magnitude is if the value has to be zero. -/
def Constraint.HoldsAt (c : Constraint) (table : Table) (tolerance : Float) (sample : Nat) : Prop :=
  ∃ value, table.cell? c.symbol sample = some value ∧
    match c.kind with
    | .atMost => value ≤ tolerance
    | .equal => value.abs ≤ tolerance

namespace Constraint

variable {c : Constraint} {table : Table} {tolerance : Float} {sample : Nat}

theorem holdsAt_iff : c.HoldsAt table tolerance sample ↔
    ∃ value, table.cell? c.symbol sample = some value ∧ c.kind.isSatisfied value tolerance := by
  unfold HoldsAt ConstraintKind.isSatisfied
  cases c.kind <;> simp

theorem HoldsAt.mono {tolerance' : Float} (h : c.HoldsAt table tolerance sample)
    (hle : tolerance ≤ tolerance') : c.HoldsAt table tolerance' sample := by
  obtain ⟨value, hvalue, hsatisfied⟩ := holdsAt_iff.mp h
  exact holdsAt_iff.mpr ⟨value, hvalue, ConstraintKind.isSatisfied_of_le hsatisfied hle⟩

/-- A constraint does not hold where its value is not a number. -/
theorem not_holdsAt_of_isNaNAt (h : table.IsNaNAt c.symbol sample) :
    ¬c.HoldsAt table tolerance sample := by
  intro hholds
  obtain ⟨value, hvalue, hsatisfied⟩ := holdsAt_iff.mp hholds
  have hnan : value.isNaN := (Table.isNaNAt_iff_of_cell? hvalue).mp h
  rw [ConstraintKind.isSatisfied_of_isNaN hnan] at hsatisfied
  cases hsatisfied

end Constraint

/-! ### What is on record -/

/-- A result after some stages: its columns are those of the variables and of the fields of these
stages, with a value for each row of the batch, and the constraints are on record if their stage is
among them. -/
structure Evaluation.OnRecord (p : Problem) (batch : Table) (stages : List Stage)
    (result : Evaluation) : Prop where
  hasRows : result.table.HasRows batch.rows
  symbols : result.table.symbols = p.draft.inputLabels ++ stages.flatMap p.draft.stageClaims
  constraints : result.constraints? =
    if .constraints ∈ stages then some (p.draft.constraints.map fun c ↦ (c.symbol, c.kind))
    else none

namespace Evaluation.OnRecord

variable {p : Problem} {batch : Table} {stages : List Stage} {result : Evaluation}

/-- Nothing else than the table and the constraints matters. -/
theorem congr {result' : Evaluation} (h : result.OnRecord p batch stages)
    (htable : result'.table = result.table)
    (hconstraints : result'.constraints? = result.constraints?) :
    result'.OnRecord p batch stages where
  hasRows := htable ▸ h.hasRows
  symbols := htable ▸ h.symbols
  constraints := hconstraints.trans h.constraints

/-- A column that a stage on record claims has a value for each row of the batch. -/
theorem exists_column (h : result.OnRecord p batch stages) {s : Stage} (hs : s ∈ stages)
    {symbol : String} (hsymbol : symbol ∈ p.draft.stageClaims s) :
    ∃ values, result.table.find? symbol = some values ∧ values.size = batch.rows := by
  have hmem : symbol ∈ result.table.symbols := by
    rw [h.symbols]
    exact List.mem_append_right _ (List.mem_flatMap.mpr ⟨s, hs, hsymbol⟩)
  obtain ⟨values, hvalues⟩ := Option.ne_none_iff_exists'.mp fun hnone ↦
    SymbolMap.find?_eq_none_iff.mp hnone hmem
  exact ⟨values, hvalues, h.hasRows _ (SymbolMap.find?_eq_some_iff.mp hvalues)⟩

/-- Once the objectives are on record there is a column, so that the table has as many rows as the
batch. -/
theorem rows_eq (h : result.OnRecord p batch stages) (hs : .objectives ∈ stages) :
    result.table.rows = batch.rows := by
  obtain ⟨f, objectives, hobjectives⟩ :=
    List.exists_cons_of_ne_nil (Draft.fault?_eq_none_iff.mp p.sound).1
  have hclaim : f.symbol ∈ p.draft.stageClaims .objectives := by
    refine List.mem_flatMap.mpr ⟨.objective f, ?_, List.mem_cons_self⟩
    rw [Draft.stageFields, hobjectives]
    exact List.mem_cons_self
  obtain ⟨values, hvalues, hsize⟩ := h.exists_column hs hclaim
  exact (result.table.hasRows_rows _ (SymbolMap.find?_eq_some_iff.mp hvalues)).symm.trans hsize

/-- Before the constraints are on record nothing is told about samples. -/
theorem feasible?_eq_none (h : result.OnRecord p batch stages) (hs : .constraints ∉ stages)
    (tolerance : Float) : result.feasible? tolerance = none := by
  rw [feasible?, constraintColumns?, h.constraints, if_neg hs]
  rfl

/-- Once the constraints are on record, each of them has a column. -/
theorem constraintColumns?_eq (h : result.OnRecord p batch stages) (hs : .constraints ∈ stages) :
    result.constraintColumns? = some (p.draft.constraints.map fun c ↦
      (c.kind, (result.table.find? c.symbol).getD #[])) := by
  have hcolumn (c : Constraint) (hc : c ∈ p.draft.constraints) :
      ∃ values, result.table.find? c.symbol = some values := by
    have hclaim : c.symbol ∈ p.draft.stageClaims .constraints :=
      List.mem_flatMap.mpr ⟨.constraint c, List.mem_map_of_mem hc, List.mem_cons_self⟩
    obtain ⟨values, hvalues, -⟩ := h.exists_column hs hclaim
    exact ⟨values, hvalues⟩
  rw [constraintColumns?, h.constraints, if_pos hs, Option.bind_some, List.mapM_map]
  refine mapM_eq_some_map fun c hc ↦ ?_
  obtain ⟨values, hvalues⟩ := hcolumn c hc
  simp [hvalues]

/-- Once the constraints are on record, the samples in whose rows all of them hold are feasible. -/
theorem exists_feasible (h : result.OnRecord p batch stages) (hs : .constraints ∈ stages)
    (hobjectives : .objectives ∈ stages) (tolerance : Float) :
    ∃ feasible, result.feasible? tolerance = some feasible ∧ feasible.length = batch.rows ∧
      ∀ sample : Nat, feasible[sample]? = some true ↔
        sample < batch.rows ∧
          ∀ c ∈ p.draft.constraints, c.HoldsAt result.table tolerance sample := by
  refine ⟨_, by rw [feasible?, h.constraintColumns?_eq hs, Option.map_some], ?_, fun sample ↦ ?_⟩
  · rw [List.length_map, List.length_range, h.rows_eq hobjectives]
  · rw [h.rows_eq hobjectives]
    by_cases hlt : sample < batch.rows
    · simp only [List.getElem?_map, List.getElem?_range hlt, Option.map_some, Option.some.injEq,
        List.all_map, List.all_eq_true, hlt, true_and]
      refine forall₂_congr fun c hc ↦ ?_
      have hclaim : c.symbol ∈ p.draft.stageClaims .constraints :=
        List.mem_flatMap.mpr ⟨.constraint c, List.mem_map_of_mem hc, List.mem_cons_self⟩
      obtain ⟨values, hvalues, hsize⟩ := h.exists_column hs hclaim
      have hcell : result.table.cell? c.symbol sample = some values[sample] := by
        rw [Table.cell?, hvalues, Option.bind_some, Array.getElem?_eq_getElem]
      rw [Constraint.holdsAt_iff]
      simp [hvalues, hcell, hsize, hlt]
    · simp [hlt]

end Evaluation.OnRecord

/-! ### Stages and runs -/

/-- The stages that are completed when an event is reported. -/
def Event.done : Event → List Stage
  | rowFailed s _ => s.before
  | stageCompleted s _ => s.upTo

namespace Problem

variable {p : Problem} {batch : Table} {policy : Policy} {start progress next : Progress}
  {s : Stage}

/-- A stage leaves the constraints that are on record as they are, unless it is their own. -/
theorem constraints?_of_runStage (h : (p.runStage policy progress s).result = .ok next) :
    next.soFar.constraints? = p.constraintsAfter s progress.soFar := by
  obtain ⟨cs, -, hadvance⟩ := runStage_eq_ok_iff.mp h
  unfold advance at hadvance
  split at hadvance
  · cases hadvance
  · obtain rfl := Except.ok.inj hadvance
    rfl

/-- A stage whose predecessors are on record is on record itself when it is completed. -/
theorem onRecord_of_runStage (hprogress : p.Consistent batch s.before progress)
    (h : progress.soFar.OnRecord p batch s.before)
    (hnext : (p.runStage policy progress s).result = .ok next) :
    p.Consistent batch s.upTo next ∧ next.soFar.OnRecord p batch s.upTo := by
  have hconsistent : p.Consistent batch s.upTo next := by
    rcases hprogress.runStage policy with ⟨error, herror, -⟩ | ⟨_, _, hok, hafter, -⟩
    · cases herror.symm.trans hnext
    · obtain rfl := Except.ok.inj (hok.symm.trans hnext)
      exact hafter
  refine ⟨hconsistent, hconsistent.hasRows, hconsistent.symbols, ?_⟩
  rw [constraints?_of_runStage hnext, constraintsAfter, h.constraints]
  cases s <;> rfl

/-- What is on record before a stage that a run comes to. -/
theorem onRecord_before (hstart : p.start batch = .ok start) (s : Stage) (progress : Progress)
    (h : (p.runStages policy start s.before).result = .ok progress) :
    p.Consistent batch s.before progress ∧ progress.soFar.OnRecord p batch s.before := by
  refine Stage.before_induction (motive := fun stages ↦ ∀ progress,
    (p.runStages policy start stages).result = .ok progress →
      p.Consistent batch stages progress ∧ progress.soFar.OnRecord p batch stages)
    ?_ ?_ s progress h
  · intro progress h
    obtain rfl := Except.ok.inj h
    have hconsistent := (solved_start hstart policy).toConsistent
    refine ⟨hconsistent, hconsistent.hasRows, hconsistent.symbols, ?_⟩
    unfold Problem.start at hstart
    split at hstart
    · cases hstart
    · obtain rfl := Except.ok.inj hstart
      rfl
  · intro s ih next h
    obtain ⟨progress, hbefore, hstage⟩ := runStages_upTo_eq_ok_iff.mp h
    obtain ⟨hprogress, hrecord⟩ := ih progress hbefore
    exact onRecord_of_runStage hprogress hrecord hstage

/-- At every moment of an evaluation the completed stages are on record, and no others. -/
theorem onRecord_of_mem_run {plan : Plan} {m : Moment} (hm : m ∈ (p.run batch plan).notes) :
    m.event.stage ∈ plan.last.upTo ∧ m.soFar.OnRecord p batch m.event.done := by
  rcases hstart : p.start batch with error | start
  · rw [run, hstart] at hm
    cases hm
  · rw [notes_run hstart] at hm
    refine ⟨stage_mem_of_mem_runStages hm, ?_⟩
    obtain ⟨front, r, rest, reached, hsplit, hreached, hmem⟩ := exists_of_mem_runStages hm
    obtain rfl := Stage.eq_before_of_upTo_eq hsplit
    obtain ⟨hconsistent, hrecord⟩ := onRecord_before hstart r reached hreached
    rcases mem_runStage_cases hmem with ⟨f, recorded, rfl⟩ | ⟨next, hnext, rfl⟩
    · exact hrecord.congr rfl rfl
    · exact (onRecord_of_runStage hconsistent hrecord hnext).2

/-- The result of an evaluation that nobody ends has all stages of the plan on record. -/
theorem onRecord_of_evaluate_eq_ok {plan : Plan} {result : Evaluation}
    (h : p.evaluate batch plan = .ok result) : result.OnRecord p batch plan.last.upTo := by
  obtain ⟨start, last, hstart, hlast, rfl⟩ := evaluate_eq_ok_iff.mp h
  obtain ⟨reached, hreached, hstage⟩ := runStages_upTo_eq_ok_iff.mp hlast
  obtain ⟨hconsistent, hrecord⟩ := onRecord_before hstart plan.last reached hreached
  exact (onRecord_of_runStage hconsistent hrecord hstage).2

end Problem

/-! ### Observed evaluations -/

namespace Observer

/-- The observer, who was shown some events one after another, has answered the last of them. -/
def Answered (observer : Observer) (events : List Event) (event : Event) : Prop :=
  ∃ before action, events = before ++ [event] ∧ observer before.reverse event = some action

end Observer

namespace Event

variable {event : Event}

/-- The constraint stage is completed at an event unless the event is of an earlier stage or a
failure of a constraint. -/
theorem constraints_mem_done_iff : .constraints ∈ event.done ↔
    event.stage ∉ Stage.constraints.before ∧ ∀ f, event ≠ .rowFailed .constraints f := by
  rcases event with ⟨s, f⟩ | ⟨s, table⟩ <;> cases s <;>
    simp [done, stage, Stage.upTo, Stage.before]

theorem done_subset_upTo {last : Stage} (h : event.stage ∈ last.upTo) : event.done ⊆ last.upTo := by
  cases event with
  | rowFailed s f =>
    exact fun r hr ↦ last.before_subset_upTo (Stage.before_subset_of_mem_upTo h hr)
  | stageCompleted s table => exact (Stage.upTo_prefix_of_mem h).subset

theorem objectives_mem_done (h : .constraints ∈ event.done) : .objectives ∈ event.done := by
  rcases event with ⟨s, f⟩ | ⟨s, table⟩ <;> revert h <;> cases s <;>
    simp [done, Stage.upTo, Stage.before]

end Event

/-- The result of an observed evaluation has the stages on record that were completed when it ended.
The constraints are among them if the plan goes so far and the observer has not ended the evaluation
before. -/
theorem Problem.exists_onRecord {p : Problem} {batch : Table} {plan : Plan} {observer : Observer}
    {events : List Event} {result : Evaluation}
    (h : p.evaluateObserved batch plan observer = (events, .ok result)) :
    ∃ stages, result.OnRecord p batch stages ∧
      (.constraints ∈ stages → .objectives ∈ stages) ∧
      (.constraints ∈ stages ↔ .constraints ∈ plan.last.upTo ∧
        ∀ event, observer.Answered events event →
          event.stage ∉ Stage.constraints.before ∧ ∀ f, event ≠ .rowFailed .constraints f) := by
  rcases Observer.watch_cases h with
    ⟨hsilent, hresult⟩ | ⟨before, m, action, hm, rfl, haction, hend⟩
  · refine ⟨plan.last.upTo, onRecord_of_evaluate_eq_ok hresult.symm, ?_, ?_⟩
    · cases plan.last <;> simp [Stage.upTo, Stage.before]
    · refine ⟨fun hmem ↦ ⟨hmem, ?_⟩, And.left⟩
      rintro event ⟨before, action, rfl, haction⟩
      have hnone := hsilent.of_append
      rw [List.append_nil, haction] at hnone
      cases hnone
  · obtain ⟨hstage, hrecord⟩ := onRecord_of_mem_run hm
    rw [List.append_nil] at haction
    have hresult := Moment.eq_of_answered_eq_ok hend.symm
    refine ⟨m.event.done, hrecord.congr (by rw [hresult]) (by rw [hresult]),
      Event.objectives_mem_done, ?_⟩
    constructor
    · intro hmem
      refine ⟨Event.done_subset_upTo hstage hmem, ?_⟩
      rintro event ⟨before', action', hevents, -⟩
      obtain ⟨-, hevent⟩ := List.append_inj' hevents rfl
      obtain rfl := (List.cons.inj hevent).1
      exact Event.constraints_mem_done_iff.mp hmem
    · rintro ⟨-, hanswered⟩
      exact Event.constraints_mem_done_iff.mpr
        (hanswered m.event ⟨before, action, rfl, haction⟩)

/-- The result of an observed evaluation tells which samples are feasible exactly if the plan goes
through the constraint stage and the observer has neither answered an event of an earlier stage nor
a failure of a constraint; whether there are any constraints is no matter. Then there is an answer
for each row of the batch, and each constraint has a column with as many values. A sample is
feasible exactly if all constraints hold in its row. So it is not if the value of one is not a
number, and what is feasible within a tolerance is feasible within every greater one. -/
theorem Problem.evaluateObserved_feasible (p : Problem) (batch : Table) (plan : Plan)
    (observer : Observer) {events : List Event} {result : Evaluation}
    (h : p.evaluateObserved batch plan observer = (events, .ok result)) (tolerance : Float) :
    ((result.feasible? tolerance).isSome ↔ .constraints ∈ plan.last.upTo ∧
      ∀ event, observer.Answered events event →
        event.stage ∉ Stage.constraints.before ∧ ∀ f, event ≠ .rowFailed .constraints f) ∧
    ∀ feasible, result.feasible? tolerance = some feasible →
      feasible.length = batch.rows ∧
      (∀ c ∈ p.draft.constraints, ∃ values, result.table.find? c.symbol = some values ∧
        values.size = batch.rows) ∧
      (∀ sample : Nat, feasible[sample]? = some true ↔
        sample < batch.rows ∧ ∀ c ∈ p.draft.constraints, ∃ value,
          result.table.cell? c.symbol sample = some value ∧
            match c.kind with
            | .atMost => value ≤ tolerance
            | .equal => value.abs ≤ tolerance) ∧
      (∀ c ∈ p.draft.constraints, ∀ sample : Nat, result.table.IsNaNAt c.symbol sample →
        feasible[sample]? = some false) ∧
      ∀ tolerance', tolerance ≤ tolerance' →
        ∃ feasible', result.feasible? tolerance' = some feasible' ∧
          ∀ sample : Nat, feasible[sample]? = some true → feasible'[sample]? = some true := by
  obtain ⟨stages, hrecord, hobjectives, hconstraints⟩ := exists_onRecord h
  rw [← hconstraints]
  by_cases hmem : .constraints ∈ stages
  · obtain ⟨feasible, hfeasible, hlength, hholds⟩ :=
      hrecord.exists_feasible hmem (hobjectives hmem) tolerance
    refine ⟨iff_of_true (by rw [hfeasible]; rfl) hmem, ?_⟩
    rintro _ hsome
    obtain rfl := Option.some.inj (hfeasible.symm.trans hsome)
    have hcolumn (c : Constraint) (hc : c ∈ p.draft.constraints) :
        ∃ values, result.table.find? c.symbol = some values ∧ values.size = batch.rows :=
      hrecord.exists_column hmem
        (List.mem_flatMap.mpr ⟨.constraint c, List.mem_map_of_mem hc, List.mem_cons_self⟩)
    refine ⟨hlength, hcolumn, hholds, fun c hc sample hnan ↦ ?_, fun tolerance' hle ↦ ?_⟩
    · -- The row has a value of the constraint, so that it is one of the batch.
      obtain ⟨values, hvalues, hsize⟩ := hcolumn c hc
      obtain ⟨value, hvalue, -⟩ := id hnan
      have hlt : sample < feasible.length := by
        rw [Table.cell?, hvalues, Option.bind_some] at hvalue
        obtain ⟨hlt, -⟩ := Array.getElem?_eq_some_iff.mp hvalue
        omega
      rw [List.getElem?_eq_getElem hlt, Option.some.injEq, ← Bool.not_eq_true]
      intro htrue
      have hall := ((hholds sample).mp (by rw [List.getElem?_eq_getElem hlt, htrue])).2
      exact Constraint.not_holdsAt_of_isNaNAt hnan (hall c hc)
    · obtain ⟨feasible', hfeasible', -, hholds'⟩ :=
        hrecord.exists_feasible hmem (hobjectives hmem) tolerance'
      refine ⟨feasible', hfeasible', fun sample htrue ↦ ?_⟩
      obtain ⟨hlt, hall⟩ := (hholds sample).mp htrue
      exact (hholds' sample).mpr ⟨hlt, fun c hc ↦ (hall c hc).mono hle⟩
  · have hnone := hrecord.feasible?_eq_none hmem tolerance
    refine ⟨iff_of_false (by rw [hnone]; decide) hmem, ?_⟩
    intro feasible hsome
    rw [hnone] at hsome
    cases hsome

/-- A draft with a constraint of either kind, one of which has no value at zero. -/
def reciprocalDraft : Draft :=
  { Draft.empty "reciprocal" with
    decisions := [⟨"x", "x", .scalar, none, none, none⟩]
    objectives := [⟨"f", "f", some (.symbol "x"), false, none, none⟩]
    constraints := [⟨"g", "g", .divide (.number 1) (.symbol "x"), .atMost⟩,
      ⟨"h", "h", .symbol "x", .equal⟩] }

/-- The problem of the draft. -/
def reciprocalProblem : Problem := ⟨reciprocalDraft, by decide +kernel⟩

/-- A batch of three samples around zero. -/
def reciprocalBatch : Table := ⟨⟨[("x", #[-2, 0, 4])], by decide⟩, by simp [rowCount]⟩

/-- Within a tolerance of two only the first sample is feasible; one over zero is not a number.
Ended at that failure, the evaluation tells of no sample. -/
theorem reciprocalProblem_feasible :
    ∃ events result feasible,
      reciprocalProblem.evaluateObserved reciprocalBatch ⟨.perRow, .scalarizations⟩ .silent =
        (events, .ok result) ∧
      result.feasible? 2 = some feasible ∧ feasible = [true, false, false] ∧
      result.table.IsNaNAt "g" 1 ∧
      (∃ feasible', result.feasible? 4 = some feasible' ∧
        ∀ sample : Nat, feasible[sample]? = some true → feasible'[sample]? = some true) ∧
      ∃ completed f stopped,
        reciprocalProblem.evaluateObserved reciprocalBatch ⟨.perRow, .scalarizations⟩ .stopping =
          ([.stageCompleted .objectives completed, .rowFailed .constraints f], .ok stopped) ∧
        stopped.feasible? 2 = none := by
  have hok : (reciprocalProblem.evaluateObserved reciprocalBatch ⟨.perRow, .scalarizations⟩
      .silent).2.toOption.map (fun result ↦
        (result.feasible? 2, (result.table.cell? "g" 1).map Float.isNaN)) =
        some (some [true, false, false], some true) := by
    decide +kernel
  have hends : (reciprocalProblem.evaluateObserved reciprocalBatch ⟨.perRow, .scalarizations⟩
      .stopping).1.map (fun event ↦ (event.stage, event.failure?.isSome)) =
        [(.objectives, false), (.constraints, true)] := by
    decide +kernel
  have hstops : (reciprocalProblem.evaluateObserved reciprocalBatch ⟨.perRow, .scalarizations⟩
      .stopping).2.toOption.isSome := by
    decide +kernel
  rcases hrun : reciprocalProblem.evaluateObserved reciprocalBatch ⟨.perRow, .scalarizations⟩
    .silent with ⟨events, error | result⟩
  · rw [hrun] at hok
    cases hok
  rcases hstopped : reciprocalProblem.evaluateObserved reciprocalBatch
    ⟨.perRow, .scalarizations⟩ .stopping with ⟨events', error | stopped⟩
  · rw [hstopped] at hstops
    cases hstops
  rw [hrun] at hok
  rw [hstopped] at hends
  obtain ⟨hfeasible, hnan⟩ := Prod.mk.inj (Option.some.inj hok)
  obtain ⟨-, hall⟩ := reciprocalProblem.evaluateObserved_feasible reciprocalBatch
    ⟨.perRow, .scalarizations⟩ .silent hrun 2
  obtain ⟨-, -, -, -, hraised⟩ := hall _ hfeasible
  obtain ⟨completed, f, rfl⟩ : ∃ completed f,
      events' = [.stageCompleted .objectives completed, .rowFailed .constraints f] := by
    obtain ⟨first, rest, rfl, hfirst, hrest⟩ := List.map_eq_cons_iff.mp hends
    obtain ⟨second, last, rfl, hsecond, hlast⟩ := List.map_eq_cons_iff.mp hrest
    obtain rfl := List.map_eq_nil_iff.mp hlast
    cases first with
    | rowFailed s f => cases hfirst
    | stageCompleted s completed =>
      cases second with
      | stageCompleted s table => cases hsecond
      | rowFailed s f =>
        obtain rfl := (Prod.mk.inj hfirst).1
        obtain rfl := (Prod.mk.inj hsecond).1
        exact ⟨completed, f, rfl⟩
  refine ⟨events, result, _, rfl, hfeasible, rfl, ?_, hraised 4 (by decide +kernel), completed, f,
    stopped, rfl, ?_⟩
  · exact Option.map_eq_some_iff.mp hnan
  · -- The observer has answered a failure of a constraint.
    obtain ⟨htold, -⟩ := reciprocalProblem.evaluateObserved_feasible reciprocalBatch
      ⟨.perRow, .scalarizations⟩ .stopping hstopped 2
    rw [← Option.not_isSome_iff_eq_none, htold]
    rintro ⟨-, hanswered⟩
    exact (hanswered (.rowFailed .constraints f) ⟨[_], .stopEarly, rfl, rfl⟩).2 f rfl

end Tradeoff
