import Tradeoff.Evaluation.Observed
import Tradeoff.Proofs.Evaluation.Moments
import Tradeoff.Proofs.Problem.Claims

/-!
# Evaluations stay in scope

What is checked of a problem before it is evaluated is what its evaluation needs. Before each stage
the environment binds exactly the symbols in scope there, in their order, and every stage adds the
symbols that its fields claim; nothing is bound or stored twice. So over a batch that covers the
decision variables an evaluation never lacks a variable or a symbol and never has trouble with its
table (`Problem.evaluate_in_scope`).

`Problem.Consistent` is the invariant between stages. It holds at the start
(`Problem.exists_start`), and a stage keeps it or ends in an error of its fields
(`Problem.Consistent.runStage`).
-/

namespace Tradeoff

/-! ### Decision variables -/

/-- Variables whose columns are in a batch can be bound one after another. -/
theorem exists_bindVariables {batch : Table} {decisions : List Variable} (env : Environment)
    {table : Table} (htable : table.HasRows batch.rows)
    (hcovers : ∀ label ∈ decisions.flatMap Variable.columnLabels, label ∈ batch.symbols)
    (hsymbols : (env.symbols ++ decisions.map (·.symbol)).Nodup)
    (hlabels : (table.symbols ++ decisions.flatMap Variable.columnLabels).Nodup) :
    ∃ env' table' inputs, bindVariables batch env table decisions = .ok (env', table') ∧
      env'.symbols = env.symbols ++ decisions.map (·.symbol) ∧
      table'.columns.entries = table.columns.entries ++ inputs ∧
      inputs.map Prod.fst = decisions.flatMap Variable.columnLabels ∧
      ∀ column ∈ inputs, column ∈ batch.columns.entries := by
  induction decisions generalizing env table with
  | nil => exact ⟨env, table, [], rfl, by simp, by simp, rfl, by simp⟩
  | cons v decisions ih =>
    rw [List.flatMap_cons] at hcovers hlabels
    obtain ⟨binding, columns, hinput⟩ :=
      Variable.exists_input fun label hlabel ↦ hcovers label (List.mem_append_left _ hlabel)
    obtain ⟨hcolumns, -, hmem⟩ := Variable.of_input_eq_ok hinput
    have hsizes : ∀ column ∈ columns, column.2.size = batch.rows := fun column hcolumn ↦
      batch.hasRows_rows column (hmem column hcolumn)
    rw [← List.append_assoc] at hlabels
    -- The columns of the variable are new to the table, and so is its symbol to the bindings.
    obtain ⟨next, hinsert⟩ := htable.exists_insertAll columns
      (by rw [hcolumns]; exact (List.nodup_append.mp hlabels).1) hsizes
    have hsymbol : v.symbol ∉ env.symbols := fun hmem ↦
      (List.nodup_append.mp hsymbols).2.2 v.symbol hmem v.symbol List.mem_cons_self rfl
    obtain ⟨env', table', inputs, hbind, hsymbols', hentries, hinputs, hmem'⟩ :=
      ih (env.bind v.symbol binding) (htable.insertAll hsizes hinsert)
        (fun label hlabel ↦ hcovers label (List.mem_append_right _ hlabel))
        (by rw [Environment.symbols_bind hsymbol]; simpa using hsymbols)
        (by rw [Table.symbols_of_insertAll hinsert, hcolumns]; exact hlabels)
    refine ⟨env', table', columns ++ inputs, ?_, ?_, ?_, ?_, ?_⟩
    · simp [bindVariables, hinput, hinsert, hbind]
    · rw [hsymbols', Environment.symbols_bind hsymbol, List.append_assoc]
      rfl
    · rw [hentries, Table.entries_of_insertAll hinsert, List.append_assoc]
    · rw [List.map_append, hcolumns, hinputs, List.flatMap_cons]
    · exact fun column hcolumn ↦ (List.mem_append.mp hcolumn).elim (hmem column) (hmem' column)

/-! ### Stages -/

namespace Problem

variable {p : Problem} {batch : Table}

/-- What holds of the state of an evaluation after some stages: the environment binds what is known
by then, and the table has the columns of the variables and after them those of the fields. -/
structure Consistent (p : Problem) (batch : Table) (stages : List Stage) (progress : Progress) :
    Prop extends progress.Sized batch.rows where
  bound : progress.env.symbols = p.draft.known stages
  columns : ∃ inputs computed, progress.soFar.table.columns.entries = inputs ++ computed ∧
    inputs.map Prod.fst = p.draft.inputLabels ∧
    (∀ column ∈ inputs, column ∈ batch.columns.entries) ∧
    computed.map Prod.fst = stages.flatMap p.draft.stageClaims

theorem Consistent.symbols {stages : List Stage} {progress : Progress}
    (h : p.Consistent batch stages progress) : progress.soFar.table.symbols =
      p.draft.inputLabels ++ stages.flatMap p.draft.stageClaims := by
  obtain ⟨inputs, computed, hentries, hinputs, -, hcomputed⟩ := h.columns
  rw [Table.symbols, SymbolMap.keys, hentries, List.map_append, hinputs, hcomputed]

/-- Over a batch that covers the decision variables an evaluation starts consistently. -/
theorem exists_start (h : p.draft.CoveredBy batch) :
    ∃ start, p.start batch = .ok start ∧ p.Consistent batch [] start := by
  have hknown := (List.nodup_append.mp (p.nodup_known_upTo .constants)).1
  have hlabels := (List.nodup_append.mp (p.nodup_columns .constants)).1
  obtain ⟨env, table, inputs, hbind, hsymbols, hentries, hinputs, hmem⟩ :=
    exists_bindVariables (.empty batch.rows) (Table.hasRows_empty _) h hknown hlabels
  have hstart : p.start batch = .ok ⟨env, ⟨table, [], .complete, none⟩⟩ := by rw [start, hbind]
  refine ⟨_, hstart, sized_start hstart, ?_, ?_⟩
  · exact hsymbols.trans (List.append_nil _).symm
  · exact ⟨inputs, [], by rw [hentries, List.append_nil]; rfl, hinputs, hmem, rfl⟩

/-- What the fields of a stage contribute after a consistent state leads to a consistent state.
Their columns come after those of the table, and their symbols are bound after those bound
before. -/
theorem Consistent.exists_completed {s : Stage} {progress : Progress} {policy : Policy}
    {cs : List Contribution} (h : p.Consistent batch s.before progress)
    (hcs : contributions progress.env policy (p.draft.stageFields s) = .ok cs) :
    ∃ table, p.advance progress s cs = .ok (p.completed progress s cs table) ∧
      p.Consistent batch s.upTo (p.completed progress s cs table) ∧
      (p.completed progress s cs table).env.bindings.entries =
        progress.env.bindings.entries ++ cs.flatMap (·.bindings) ∧
      table.columns.entries = progress.soFar.table.columns.entries ++
        bindingColumns batch.rows (cs.flatMap (·.bindings)) := by
  obtain ⟨hclaims, hbindings⟩ := of_contributions_eq_ok hcs
  obtain ⟨hsymbols, hsizes⟩ := of_bindingColumns hbindings
  have hadded : (bindingColumns progress.env.rows (cs.flatMap (·.bindings))).map Prod.fst =
      p.draft.stageClaims s := hsymbols.trans hclaims
  have hupTo : s.upTo.flatMap p.draft.stageClaims =
      s.before.flatMap p.draft.stageClaims ++ p.draft.stageClaims s := by
    simp [Stage.upTo]
  -- No column of the stage is in the table already, nor is a symbol of it bound.
  obtain ⟨table, htable⟩ := h.hasRows.exists_insertAll
    (bindingColumns progress.env.rows (cs.flatMap (·.bindings)))
    (by
      rw [h.symbols, hadded, List.append_assoc, ← hupTo]
      exact p.nodup_columns s)
    fun column hmem ↦ (hsizes column hmem).trans h.rows
  have hcolumns := Table.entries_of_insertAll htable
  have hentries : (progress.env.bindAll (cs.flatMap (·.bindings))).bindings.entries =
      progress.env.bindings.entries ++ cs.flatMap (·.bindings) := by
    refine Environment.entries_bindAll ?_
    rw [h.bound, hclaims, ← Draft.stageClaims, ← Draft.known_upTo]
    exact p.nodup_known_upTo s
  have hnext : p.advance progress s cs = .ok (p.completed progress s cs table) := by
    rw [advance, htable]
  refine ⟨table, hnext, ⟨sized_advance h.toSized hcs hnext, ?_, ?_⟩, hentries, h.rows ▸ hcolumns⟩
  · rw [env_completed, Environment.symbols, SymbolMap.keys, hentries, List.map_append, hclaims,
      Draft.known_upTo, ← h.bound]
    rfl
  · obtain ⟨inputs, computed, hbefore, hinputs, hcopied, hcomputed⟩ := h.columns
    refine ⟨inputs, computed ++ bindingColumns progress.env.rows (cs.flatMap (·.bindings)), ?_,
      hinputs, hcopied, ?_⟩
    · rw [table_completed, hcolumns, hbefore, List.append_assoc]
    · rw [List.map_append, hcomputed, hadded, hupTo]

/-- A stage after a consistent state ends in an error of its fields, or again consistently, with
the symbols claimed in the stage bound after those bound before. -/
theorem Consistent.runStage {s : Stage} {progress : Progress} (policy : Policy)
    (h : p.Consistent batch s.before progress) :
    (∃ error, (p.runStage policy progress s).result = .error error ∧
      ((∃ symbol, error = .dataBasedObjective symbol) ∨ ∃ f, error = .failure f)) ∨
    ∃ next added, (p.runStage policy progress s).result = .ok next ∧
      p.Consistent batch s.upTo next ∧
      next.env.bindings.entries = progress.env.bindings.entries ++ added ∧
      added.map Prod.fst = p.draft.stageClaims s := by
  rw [result_runStage]
  rcases hcs : contributions progress.env policy (p.draft.stageFields s) with error | cs
  · refine Or.inl ⟨error, rfl, ?_⟩
    obtain ⟨field, hfield, herror⟩ := exists_of_contributions_eq_error hcs
    refine Field.of_contribute_eq_error h.fits (fun e he symbol hsymbol ↦ ?_) herror
    rw [h.bound, Draft.known_before]
    exact p.mem_scope_of_mem_mentions hfield he hsymbol
  · obtain ⟨table, hnext, hconsistent, hentries, -⟩ := h.exists_completed hcs
    exact Or.inr ⟨_, _, hnext, hconsistent, hentries, (of_contributions_eq_ok hcs).1⟩

/-! ### Runs -/

/-- A stage that a run goes through keeps its state consistent. -/
theorem consistent_upTo {start : Progress} {policy : Policy} {s : Stage}
    (hbefore : ∀ progress, (p.runStages policy start s.before).result = .ok progress →
      p.Consistent batch s.before progress) (next : Progress)
    (h : (p.runStages policy start s.upTo).result = .ok next) :
    p.Consistent batch s.upTo next := by
  obtain ⟨progress, hrun, hstage⟩ := runStages_upTo_eq_ok_iff.mp h
  rcases (hbefore progress hrun).runStage policy with ⟨error, herror, -⟩ | ⟨_, _, hok, hnext, -⟩
  · cases herror.symm.trans hstage
  · cases hok.symm.trans hstage
    exact hnext

/-- Before every stage that a run comes to, its state is consistent. -/
theorem Consistent.before {start : Progress} (h : p.Consistent batch [] start) (policy : Policy)
    (s : Stage) (progress : Progress)
    (hrun : (p.runStages policy start s.before).result = .ok progress) :
    p.Consistent batch s.before progress := by
  refine Stage.before_induction (motive := fun stages ↦ ∀ progress,
    (p.runStages policy start stages).result = .ok progress →
      p.Consistent batch stages progress) ?_ (fun s ↦ consistent_upTo) s progress hrun
  intro progress hrun
  cases hrun
  exact h

/-- The errors of a run through stages are those of fields. -/
theorem of_runStages_eq_error {start : Progress} (h : p.Consistent batch [] start)
    (policy : Policy) (s : Stage) (error : EvalError)
    (hrun : (p.runStages policy start s.upTo).result = .error error) :
    (∃ symbol, error = .dataBasedObjective symbol) ∨ ∃ f, error = .failure f := by
  refine Stage.upTo_induction (motive := fun stages ↦
    (p.runStages policy start stages).result = .error error →
      (∃ symbol, error = .dataBasedObjective symbol) ∨ ∃ f, error = .failure f) ?_ ?_ s hrun
  · intro hrun
    cases hrun
  · intro s ih hrun
    rw [runStages_upTo] at hrun
    rcases bind_eq_error_iff.mp hrun with hbefore | ⟨reached, hbefore, hstage⟩
    · exact ih hbefore
    · rcases (h.before policy s reached hbefore).runStage policy with
        ⟨error', herror, hdata⟩ | ⟨next, _, hnext, -⟩
      · cases herror.symm.trans hstage
        exact hdata
      · cases hnext.symm.trans hstage

end Problem

theorem Observer.of_watch_eq_error {observer : Observer} {outcome : Except EvalError Evaluation}
    {earlier : List Event} {moments : List Moment} {error : EvalError}
    (h : (observer.watch outcome earlier moments).2 = .error error) :
    outcome = .error error ∨ ∃ f, error = .failure f := by
  have hwatch : observer.watch outcome earlier moments =
      ((observer.watch outcome earlier moments).1, .error error) := Prod.ext rfl h
  rcases Observer.watch_cases hwatch with ⟨-, houtcome⟩ | ⟨-, m, action, -, -, -, hend⟩
  · exact .inl houtcome.symm
  · obtain ⟨-, f, -, hfailure⟩ := Moment.exists_of_answered_eq_error hend.symm
    exact .inr ⟨f, hfailure⟩

/-- The evaluation of a problem over a batch that covers its decision variables stays in scope.
Under any observer, its errors are stored objectives and failures. At every stage it comes to, the
environment binds the symbols in scope there, and the stage adds those that its fields claim after
them. The columns of the result are those of the variables, as in the batch, and then those that the
fields claim, stage by stage. -/
theorem Problem.evaluate_in_scope (p : Problem) (batch : Table) (plan : Plan)
    (hbatch : p.draft.CoveredBy batch) :
    (∀ observer error, (p.evaluateObserved batch plan observer).2 = .error error →
      (∃ symbol, error = .dataBasedObjective symbol) ∨ ∃ f, error = .failure f) ∧
    (∀ before s after, plan.last.upTo = before ++ s :: after →
      ∀ start progress, p.start batch = .ok start →
        (p.runStages plan.policy start before).result = .ok progress →
        progress.env.symbols = p.draft.scope s ∧
        ∀ next, (p.runStage plan.policy progress s).result = .ok next →
          ∃ added, next.env.bindings.entries = progress.env.bindings.entries ++ added ∧
            added.map Prod.fst = (p.draft.stageFields s).flatMap Field.claims) ∧
    (∀ result, (p.evaluateObserved batch plan .silent).2 = .ok result →
      (∃ inputs computed, result.table.columns.entries = inputs ++ computed ∧
        inputs.map Prod.fst = p.draft.decisions.flatMap Variable.columnLabels ∧
        (∀ column ∈ inputs, batch.find? column.1 = some column.2) ∧
        computed.map Prod.fst =
          plan.last.upTo.flatMap fun s ↦ (p.draft.stageFields s).flatMap Field.claims) ∧
      ∀ column ∈ result.table.columns.entries, column.2.size = batch.rows) := by
  obtain ⟨start, hstart, hconsistent⟩ := exists_start hbatch
  refine ⟨fun observer error herror ↦ ?_, ?_, fun result hresult ↦ ?_⟩
  -- An observer can only add failures to the errors of the evaluation itself.
  · rcases Observer.of_watch_eq_error herror with houtcome | hfailure
    · have heval : p.evaluate batch plan = .error error := houtcome
      rw [evaluate_eq, hstart, Except.bind] at heval
      exact of_runStages_eq_error hconsistent plan.policy plan.last error
        (map_eq_error_iff.mp heval)
    · exact Or.inr hfailure
  · intro before s after hsplit start' progress hstart' hrun
    cases hstart.symm.trans hstart'
    rw [Stage.eq_before_of_upTo_eq hsplit] at hrun
    have hreached := hconsistent.before plan.policy s progress hrun
    refine ⟨hreached.bound, fun next hnext ↦ ?_⟩
    rcases hreached.runStage plan.policy with ⟨error, herror, -⟩ | ⟨_, added, hok, -, hadded⟩
    · cases herror.symm.trans hnext
    · cases hok.symm.trans hnext
      exact ⟨added, hadded⟩
  · rw [evaluateObserved_silent, evaluate_eq, hstart, Except.bind] at hresult
    obtain ⟨progress, hrun, rfl⟩ := map_eq_ok_iff.mp hresult
    have hlast := consistent_upTo (hconsistent.before plan.policy plan.last) progress hrun
    obtain ⟨inputs, computed, hcolumns, hinputs, hcopied, hcomputed⟩ := hlast.columns
    exact ⟨⟨inputs, computed, hcolumns, hinputs,
      fun column hmem ↦ SymbolMap.find?_eq_some_iff.mpr (hcopied column hmem), hcomputed⟩,
      hlast.hasRows⟩

/-! ### A small problem -/

/-- A draft with a scalar and a vector variable, an objective to be maximized and a constraint on
its alias. -/
def smallDraft : Draft :=
  { Draft.empty "small" with
    decisions := [⟨"x", "x", .scalar, none, none, none⟩, ⟨"v", "v", .vector 2, none, none, none⟩]
    objectives := [⟨"f", "f", some (.symbol "x"), true, none, none⟩]
    constraints := [⟨"g", "g", .symbol "f_min", .atMost⟩] }

/-- The problem of the draft. -/
def smallProblem : Problem := ⟨smallDraft, by decide +kernel⟩

/-- A batch of two samples for the problem. -/
def smallBatch : Table :=
  ⟨⟨[("x", #[1, 2]), ("v[1]", #[3, 4]), ("v[2]", #[5, 6])], by decide⟩, by simp [rowCount]⟩

theorem smallProblem_evaluate_in_scope :
    smallProblem.draft.CoveredBy smallBatch ∧
      ∃ result, (smallProblem.evaluateObserved smallBatch {} .silent).2 = .ok result ∧
        (∃ inputs computed, result.table.columns.entries = inputs ++ computed ∧
          inputs.map Prod.fst = ["x", "v[1]", "v[2]"] ∧
          computed.map Prod.fst = ["f", "f_min", "g"]) ∧
        ∀ column ∈ result.table.columns.entries, column.2.size = 2 := by
  have hcovered : smallProblem.draft.CoveredBy smallBatch := by decide
  have hok : (smallProblem.evaluateObserved smallBatch {} .silent).2.isOk := by decide +kernel
  refine ⟨hcovered, ?_⟩
  rcases hresult : (smallProblem.evaluateObserved smallBatch {} .silent).2 with error | result
  · rw [hresult] at hok
    cases hok
  · obtain ⟨⟨inputs, computed, hcolumns, hinputs, -, hcomputed⟩, hsizes⟩ :=
      (smallProblem.evaluate_in_scope smallBatch {} hcovered).2.2 result hresult
    have hlabels : smallDraft.decisions.flatMap Variable.columnLabels = ["x", "v[1]", "v[2]"] := by
      decide
    exact ⟨result, rfl, ⟨inputs, computed, hcolumns, hinputs.trans hlabels, hcomputed⟩, hsizes⟩

end Tradeoff
