import Tradeoff.Proofs.Evaluation.Equations
import Tradeoff.Proofs.Evaluation.RowRun
import Tradeoff.Proofs.Problem.Scalarization

/-!
# Evaluating with more scalarizations

A problem with one more scalarization is evaluated as the problem without it, up to the last stage
(`Problem.runStages_addScalarization`), and there the new function comes last. So a result of the
extended problem is one of the problem, with the column of the new function after the others and its
failures after the others (`Problem.exists_evaluate_of_addScalarization`).
`Problem.addScalarization_conservative` says all that is to be said of adding scalarizations.
-/

namespace Tradeoff

/-- What fields and some more contribute is what the former do and then what the latter do. -/
theorem contributions_append (env : Environment) (policy : Policy) (fields more : List Field) :
    contributions env policy (fields ++ more) =
      (contributions env policy fields).bind fun cs ↦
        (contributions env policy more).map (cs ++ ·) := by
  induction fields with
  | nil =>
    rw [contributions, List.nil_append]
    show _ = (contributions env policy more).map ([] ++ ·)
    rcases contributions env policy more with error | cs <;> rfl
  | cons field fields ih =>
    rw [List.cons_append, contributions, contributions, ih]
    rcases field.contribute env policy with error | c
    · rfl
    · rcases contributions env policy fields with error | cs
      · rfl
      · rcases contributions env policy more with error | rest <;> rfl

/-- The second result is the first one with one more column at the end of the table and with more
failures at the end. -/
structure Evaluation.ExtendedBy (result : Evaluation) (column : String × Array Float)
    (failures : List Failure) (extended : Evaluation) : Prop where
  /-- The columns. -/
  entries : extended.table.columns.entries = result.table.columns.entries ++ [column]
  /-- The failures. -/
  failures : extended.failures = result.failures ++ failures
  /-- The status is the same. -/
  status : extended.status = result.status
  /-- The same constraints are on record. -/
  constraints : extended.constraints? = result.constraints?

namespace Problem

variable {p q : Problem} {f : DerivedFunction} {batch : Table} {policy : Policy}

/-! ### The stages before -/

section Stages

variable (hq : q.draft = p.draft.addScalarization f)

include hq

theorem start_addScalarization (batch : Table) : q.start batch = p.start batch := by
  rw [start, start, hq, Draft.addScalarization]

/-- Before the last stage, the new function makes no difference. -/
theorem runStage_addScalarization {s : Stage} (hs : s ≠ .scalarizations) (policy : Policy)
    (progress : Progress) : q.runStage policy progress s = p.runStage policy progress s := by
  have hconstraints : q.constraintsAfter s = p.constraintsAfter s := by
    funext soFar
    rw [constraintsAfter, constraintsAfter, hq, Draft.addScalarization]
  rw [runStage, runStage, hq, Draft.stageFields_addScalarization _ _ hs, hconstraints]

theorem runStages_addScalarization {stages : List Stage} (hstages : .scalarizations ∉ stages)
    (policy : Policy) (progress : Progress) :
    q.runStages policy progress stages = p.runStages policy progress stages := by
  induction stages generalizing progress with
  | nil => rfl
  | cons s stages ih =>
    rw [List.mem_cons, not_or] at hstages
    rw [runStages, runStages, runStage_addScalarization hq (Ne.symm hstages.1)]
    congr 1
    funext next
    exact ih hstages.2 next

/-- An evaluation that ends before the last stage is the same. -/
theorem evaluate_addScalarization {plan : Plan} (hlast : plan.last ≠ .scalarizations)
    (batch : Table) : q.evaluate batch plan = p.evaluate batch plan := by
  have hstages : .scalarizations ∉ plan.last.upTo := by
    revert hlast
    cases plan.last <;> decide
  simp only [evaluate_eq, start_addScalarization hq, runStages_addScalarization hq hstages]

/-! ### The last stage -/

/-- In the last stage the new function is evaluated after the others, as their columns are not
bound before the end of the stage. -/
theorem Solved.runStage_addScalarization {progress extended : Progress}
    (h : p.Solved batch policy Stage.scalarizations.before progress)
    (h' : q.Solved batch policy Stage.scalarizations.before progress)
    (hrun : (q.runStage policy progress .scalarizations).result = .ok extended) :
    ∃ next column failures, (p.runStage policy progress .scalarizations).result = .ok next ∧
      policy.settle (f.expr.attemptColumn ⟨progress.env, some f.symbol⟩) = .ok (column, failures) ∧
      next.soFar.ExtendedBy (f.symbol, column.broadcast batch.rows) failures extended.soFar := by
  obtain ⟨all, hall, hadvance⟩ := runStage_eq_ok_iff.mp hrun
  obtain ⟨table', hcompleted', -, -, htable'⟩ := h'.exists_completed hall
  cases hcompleted'.symm.trans hadvance
  rw [hq, Draft.stageFields_addScalarization_last, contributions_append] at hall
  obtain ⟨cs, hcs, hmore⟩ := bind_eq_ok_iff.mp hall
  obtain ⟨more, hnew, rfl⟩ := map_eq_ok_iff.mp hmore
  obtain ⟨c, rest, hc, hrest, rfl⟩ := contributions_cons_eq_ok_iff.mp hnew
  cases hrest
  have hexpr : (Field.scalarization f).expr? = some f.expr := rfl
  rw [Field.contribute_of_expr? hexpr] at hc
  obtain ⟨⟨column, failures⟩, hsettle, rfl⟩ := map_eq_ok_iff.mp hc
  obtain ⟨table, hcompleted, -, -, htable⟩ := h.exists_completed hcs
  refine ⟨p.completed progress .scalarizations cs table, column, failures, ?_, hsettle, ?_, ?_, rfl,
    rfl⟩
  · exact runStage_eq_ok_iff.mpr ⟨cs, hcs, hcompleted⟩
  · rw [table_completed, table_completed, htable, htable', List.flatMap_append,
      bindingColumns_append, List.append_assoc]
    rfl
  · simp [completed, Evaluation.failures, Evaluation.recordAll]

/-- Where the extended problem has a result, the problem has one, and the other one is this with the
column and the failures that the new expression has by itself. -/
theorem exists_evaluate_of_addScalarization {extended : Evaluation}
    (h : q.evaluate batch ⟨policy, .scalarizations⟩ = .ok extended) :
    ∃ result env values failures, p.evaluate batch ⟨policy, .scalarizations⟩ = .ok result ∧
      p.StageEnvironment batch policy .scalarizations result.table env ∧
      f.expr.evaluate env policy = .ok (values, failures) ∧
      result.ExtendedBy (f.symbol, values) (failures.map (Failure.ofField f.symbol)) extended := by
  obtain ⟨start, last, hstart', hlast, rfl⟩ := evaluate_eq_ok_iff.mp h
  obtain ⟨progress, hbefore', hstage⟩ := runStages_upTo_eq_ok_iff.mp hlast
  -- Up to here, the problem itself comes to the same state.
  have hstart : p.start batch = .ok start := start_addScalarization hq batch ▸ hstart'
  have hbefore : (p.runStages policy start Stage.scalarizations.before).result = .ok progress := by
    have hstages : .scalarizations ∉ Stage.scalarizations.before := by decide
    exact runStages_addScalarization hq hstages policy start ▸ hbefore'
  have hsolved : p.Solved batch policy Stage.scalarizations.before progress :=
    ((solved_start hstart policy).upTo .constraints progress hbefore).1
  have hsolved' : q.Solved batch policy Stage.scalarizations.before progress :=
    ((solved_start hstart' policy).upTo .constraints progress hbefore').1
  obtain ⟨next, column, failures, hnext, hsettle, hextended⟩ :=
    hsolved.runStage_addScalarization hq hsolved' hstage
  obtain ⟨hend, hkept⟩ := hsolved.runStage hnext
  obtain ⟨failures', hevaluate, rfl⟩ := Expr.evaluate_of_field hsettle
  rw [hsolved.rows] at hevaluate
  have hrun : (p.runStages policy start Stage.scalarizations.upTo).result = .ok next :=
    runStages_upTo_eq_ok_iff.mpr ⟨progress, hbefore, hnext⟩
  exact ⟨next.soFar, progress.env, _, failures',
    evaluate_eq_ok_iff.mpr ⟨start, next, hstart, hrun, rfl⟩,
    hsolved.stageEnvironment hend hkept, hevaluate, hextended⟩

end Stages

/-! ### One scalarization after another -/

/-- With many scalarizations added, a result begins as without them. -/
theorem Reaches.exists_evaluate {added : List DerivedFunction} (h : p.Reaches added q)
    {extended : Evaluation} (hok : q.evaluate batch ⟨policy, .scalarizations⟩ = .ok extended) :
    ∃ result columns failures, p.evaluate batch ⟨policy, .scalarizations⟩ = .ok result ∧
      columns.map Prod.fst = added.map DerivedFunction.symbol ∧
      extended.table.columns.entries = result.table.columns.entries ++ columns ∧
      extended.failures = result.failures ++ failures := by
  induction h generalizing extended with
  | start => exact ⟨extended, [], [], hok, rfl, (List.append_nil _).symm, (List.append_nil _).symm⟩
  | @add _ _ _ _ symbol _ e _ hmade hadded ih =>
    obtain ⟨_, haccepts, hdraft⟩ := addScalarization_eq_ok_iff.mp hadded
    cases hmade.symm.trans haccepts.made
    obtain ⟨middle, _, values, own, hmiddle, -, -, hextended⟩ :=
      exists_evaluate_of_addScalarization hdraft hok
    obtain ⟨result, columns, failures, hresult, hsymbols, hentries, hfailures⟩ := ih hmiddle
    refine ⟨result, columns ++ [(symbol, values)], failures ++ own.map (Failure.ofField symbol),
      hresult, ?_, ?_, ?_⟩
    · rw [List.map_append, List.map_append, hsymbols]
      rfl
    · rw [hextended.entries, hentries, List.append_assoc]
    · rw [hextended.failures, hfailures, List.append_assoc]

/-- A scalarization is added exactly if its symbol is new, its expression is made, the symbol is an
identifier and the expression mentions only what is in scope; otherwise the error is that of the
first that is not so. Added scalarizations come last and nothing else changes, so that whatever is
reached by adding some is a problem again. Its results are those of the problem with the columns and
failures of the new functions at the end, of each as it is evaluated by itself. -/
theorem addScalarization_conservative (p : Problem) (name symbol : String) (make : Scalarizer) :
    (∀ q, p.addScalarization name symbol make = .ok q ↔ ∃ e, p.Accepts symbol make e ∧
      q.draft = { p.draft with scalarizations := p.draft.scalarizations ++ [⟨name, symbol, e⟩] }) ∧
    (∀ error, p.addScalarization name symbol make = .error error ↔ p.Refuses symbol make error) ∧
    (∀ added q, p.Reaches added q → q.draft.Sound ∧ q.draft.build = .ok q ∧
      q.draft = { p.draft with scalarizations := p.draft.scalarizations ++ added } ∧
      ∀ batch policy extended, q.evaluate batch ⟨policy, .scalarizations⟩ = .ok extended →
        ∃ result columns failures, p.evaluate batch ⟨policy, .scalarizations⟩ = .ok result ∧
          columns.map Prod.fst = added.map DerivedFunction.symbol ∧
          extended.table.columns.entries = result.table.columns.entries ++ columns ∧
          extended.failures = result.failures ++ failures) ∧
    ∀ q e, p.addScalarization name symbol make = .ok q → make p = .ok e →
      (∀ batch plan, plan.last ≠ .scalarizations → q.evaluate batch plan = p.evaluate batch plan) ∧
      ∀ batch policy extended, q.evaluate batch ⟨policy, .scalarizations⟩ = .ok extended →
        ∃ result env values failures, p.evaluate batch ⟨policy, .scalarizations⟩ = .ok result ∧
          p.StageEnvironment batch policy .scalarizations result.table env ∧
          e.evaluate env policy = .ok (values, failures) ∧
          result.ExtendedBy (symbol, values) (failures.map (Failure.ofField symbol)) extended := by
  refine ⟨fun q ↦ addScalarization_eq_ok_iff, fun error ↦ addScalarization_eq_error_iff,
    fun added q hreaches ↦ ⟨q.isSound, Draft.build_eq_ok_iff.mpr ⟨q.sound, rfl⟩, hreaches.draft_eq,
      fun batch policy extended hextended ↦ hreaches.exists_evaluate hextended⟩,
    fun q e hadded hmade ↦ ?_⟩
  obtain ⟨e', haccepts, hdraft⟩ := addScalarization_eq_ok_iff.mp hadded
  cases hmade.symm.trans haccepts.made
  exact ⟨fun batch plan hlast ↦ evaluate_addScalarization hdraft hlast batch,
    fun batch policy extended hextended ↦ exists_evaluate_of_addScalarization hdraft hextended⟩

/-- A weight for the only objective of the quotient. -/
def doubleWeight : SortedMap Float := ⟨[("f", 2)], List.pairwise_singleton _ _⟩

/-- The weighted quotient is evaluated after the quotient, and fails where that fails. An alias
cannot be its symbol. -/
theorem quotientProblem_addScalarization :
    ∃ q result extended values failures,
      quotientProblem.addScalarization "total" "s" (weightedSum doubleWeight) = .ok q ∧
      q.draft.Sound ∧
      quotientProblem.evaluate quotientBatch ⟨.perRow, .scalarizations⟩ = .ok result ∧
      q.evaluate quotientBatch ⟨.perRow, .scalarizations⟩ = .ok extended ∧
      extended.table.columns.entries = result.table.columns.entries ++ [("s", values)] ∧
      extended.failures = result.failures ++ failures ∧
      quotientProblem.addScalarization "total" "f_min" (weightedSum doubleWeight) =
        .error (.problem (.duplicateSymbol "f_min")) := by
  obtain ⟨-, -, hreaches, hextends⟩ :=
    quotientProblem.addScalarization_conservative "total" "s" (weightedSum doubleWeight)
  obtain ⟨-, hrefuses, -, -⟩ :=
    quotientProblem.addScalarization_conservative "total" "f_min" (weightedSum doubleWeight)
  have htaken : quotientProblem.draft.Taken "f_min" := .inr ⟨_, List.mem_singleton_self _, rfl⟩
  have hmade : weightedSum doubleWeight quotientProblem =
      .ok (.multiply (.number 2) (.symbol "f_min")) := by rfl
  have hok : (quotientProblem.addScalarization "total" "s" (weightedSum doubleWeight)).toOption.any
      fun q ↦ (q.evaluate quotientBatch ⟨.perRow, .scalarizations⟩).isOk := by
    decide +kernel
  rcases hadded : quotientProblem.addScalarization "total" "s" (weightedSum doubleWeight) with
    error | q
  · rw [hadded] at hok
    cases hok
  · rcases hextended : q.evaluate quotientBatch ⟨.perRow, .scalarizations⟩ with error | extended
    · rw [hadded, Except.toOption, Option.any_some, hextended] at hok
      cases hok
    · obtain ⟨result, env, values, failures, hresult, -, -, hby⟩ :=
        (hextends q _ hadded hmade).2 quotientBatch .perRow extended hextended
      obtain ⟨hsound, -, -, -⟩ := hreaches _ q (.add .start hmade hadded)
      exact ⟨q, result, extended, values, _, rfl, hsound, hresult, hextended, hby.entries,
        hby.failures, (hrefuses _).mpr (.taken htaken)⟩

end Problem

end Tradeoff
