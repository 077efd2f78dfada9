import Tradeoff.Proofs.Evaluation.Inheritance
import Tradeoff.Proofs.Evaluation.Solution

/-!
# The equations of a problem

What an evaluation computes for a field is the value of its expression by itself, in an environment
that is described without the evaluation (`Problem.StageEnvironment`): it binds what is in scope in
the stage of the field, the decision variables to their columns in the batch, constants to their
values, and other fields to the columns of their own expressions, which the result has for them.
`Problem.evaluate_solves` says so, and that of a batch nothing matters but these columns and the
number of samples.
-/

namespace Tradeoff

namespace Problem

variable {p : Problem} {batch : Table} {policy : Policy} {stages : List Stage} {progress : Progress}

/-! ### The environment of a stage -/

/-- The environment in which the fields of a stage have their values, where the values of fields of
earlier stages are those in a table. -/
structure StageEnvironment (p : Problem) (batch : Table) (policy : Policy) (s : Stage)
    (table : Table) (env : Environment) : Prop where
  /-- It has the samples of the batch. -/
  rows : env.rows = batch.rows
  /-- It binds exactly what is in scope in the stage. -/
  symbols : env.symbols = p.draft.scope s
  /-- A scalar variable stands for its column in the batch. -/
  scalar : ∀ v ∈ p.draft.decisions, v.shape = .scalar → ∃ values,
    batch.find? v.symbol = some values ∧ env.find? v.symbol = some (.scalar (.samples values))
  /-- A vector variable stands for the columns of its components in the batch. -/
  vector : ∀ v ∈ p.draft.decisions, ∀ length, v.shape = .vector length →
    ∃ columns : List (String × Array Float),
      columns.map Prod.fst = componentLabels v.symbol 1 length ∧
      (∀ column ∈ columns, batch.find? column.1 = some column.2) ∧
      env.find? v.symbol = some (.vector (columns.map fun column ↦ .samples column.2))
  /-- A constant that is a number stands for it in all samples. -/
  number : .constants ∈ s.before → ∀ c ∈ p.draft.constants, ∀ value, c.value = .number value →
    env.find? c.symbol = some (.scalar (.constant value))
  /-- A constant that is a truth value stands for it. -/
  flag : .constants ∈ s.before → ∀ c ∈ p.draft.constants, ∀ value, c.value = .bool value →
    env.find? c.symbol = some (.flag value)
  /-- A field of an earlier stage stands for its column, which is that of its expression in the same
  environment. It varies from sample to sample exactly if something that its expression mentions
  does. -/
  field : ∀ earlier ∈ s.before, ∀ field ∈ p.draft.stageFields earlier, ∀ e, field.expr? = some e →
    ∃ column failures, env.find? field.symbol = some (.scalar column) ∧
      e.computeColumn ⟨env, some field.symbol⟩ policy = .ok (column, failures) ∧
      table.find? field.symbol = some (column.broadcast batch.rows) ∧
      (column.IsSampled ↔ ∃ symbol ∈ e.mentions, env.Has Column.IsSampled symbol)
  /-- The alias of an objective stands for the column of the objective, negated if it is to be
  maximized. -/
  oriented : .objectives ∈ s.before → ∀ f ∈ p.draft.objectives, ∃ column,
    env.find? f.symbol = some (.scalar column) ∧
      env.find? (minAlias f.symbol) =
        some (.scalar (if f.maximize then column.map fun value ↦ -value else column)) ∧
      table.find? (minAlias f.symbol) =
        some ((if f.maximize then column.map fun value ↦ -value else column).broadcast batch.rows)

/-- Later bindings do not change earlier ones. -/
theorem find?_of_bound_before {env env' : Environment}
    (h : env.bindings.entries <+: env'.bindings.entries) {symbol : String} {binding : Binding}
    (hfind : env.find? symbol = some binding) : env'.find? symbol = some binding :=
  SymbolMap.find?_eq_some_iff.mpr (h.subset (SymbolMap.find?_eq_some_iff.mp hfind))

theorem map_orient (f : Objective) (column : Column) :
    column.map f.orient = if f.maximize then column.map fun value ↦ -value else column := by
  cases hmax : f.maximize with
  | true =>
    have horient : f.orient = fun value ↦ -value := by
      funext value
      simp [Objective.orient, hmax]
    rw [horient, if_pos rfl]
  | false =>
    have horient : f.orient = id := by
      funext value
      simp [Objective.orient, hmax]
    rw [horient, if_neg (by decide)]
    cases column with
    | constant value => rfl
    | samples values => simp [Column.map]

/-- Before every later stage a constant is bound to its value. -/
theorem Solved.find?_constant_before {s : Stage} (h : p.Solved batch policy s.before progress)
    (hbefore : .constants ∈ s.before) {c : Constant} (hc : c ∈ p.draft.constants) :
    progress.env.find? c.symbol = some c.value.binding :=
  h.find?_constant (Draft.mem_fieldsOf.mpr ⟨.constants, hbefore, List.mem_map_of_mem hc⟩)

/-- In the environment of a run, a column varies from sample to sample exactly if something that
its expression mentions does: the components of vectors all do, being columns of the batch. -/
theorem Solved.isSampled_iff {stages : List Stage} {field? : Option String} {e : Expr}
    {column : Column} (h : p.Solved batch policy stages progress)
    (hcolumn : (e.attemptColumn ⟨progress.env, field?⟩).result = .ok column) :
    column.IsSampled ↔ ∃ symbol ∈ e.mentions, progress.env.Has Column.IsSampled symbol := by
  have hinherits : Scene.Inherits ⟨progress.env, field?⟩ Column.IsSampled fun _ ↦ False := by
    refine Scene.inherits_isSampled fun symbol components hvector column hmem ↦ ?_
    obtain ⟨values, rfl, -⟩ := h.of_find?_vector hvector hmem
    trivial
  have hpasses := Expr.attemptColumn_passes hinherits (e := e) (fun _ _ h ↦ h) column hcolumn
  simpa using hpasses

/-- Before every stage, the environment of a run is the one that is described. -/
theorem Solved.stageEnvironment {s : Stage} {last : Progress}
    (h : p.Solved batch policy s.before progress) (hlast : p.Solved batch policy stages last)
    (hkept : progress.env.bindings.entries <+: last.env.bindings.entries) :
    p.StageEnvironment batch policy s last.soFar.table progress.env where
  rows := h.rows
  symbols := h.bound
  scalar v hv hshape := by
    obtain ⟨values, hfind, hgiven⟩ := Variable.given_of_scalar hshape (h.inputs v hv)
    exact ⟨values, hfind, by rw [h.find?_variable hv, hgiven]⟩
  vector v hv length hshape := by
    obtain ⟨columns, hlabels, hfind, hgiven⟩ := Variable.given_of_vector hshape (h.inputs v hv)
    exact ⟨columns, hlabels, hfind, by rw [h.find?_variable hv, hgiven]⟩
  number hbefore c hc value hvalue := by
    rw [h.find?_constant_before hbefore hc, hvalue]
    rfl
  flag hbefore c hc value hvalue := by
    rw [h.find?_constant_before hbefore hc, hvalue]
    rfl
  field earlier hearlier field hfield e he := by
    have hmem : field ∈ p.draft.fieldsOf s.before :=
      Draft.mem_fieldsOf.mpr ⟨earlier, hearlier, hfield⟩
    obtain ⟨column, failures, hsettle, hcontributed⟩ := h.exists_column hmem he
    have hfind := h.find?_symbol hmem hcontributed
    refine ⟨column, failures, hfind, (e.computeColumn_eq _ policy).trans hsettle,
      hlast.find?_table (find?_of_bound_before hkept hfind) rfl,
      h.isSampled_iff (Policy.settle_eq_ok hsettle)⟩
  oriented hbefore f hf := by
    have hmem : .objective f ∈ p.draft.fieldsOf s.before :=
      Draft.mem_fieldsOf.mpr ⟨.objectives, hbefore, List.mem_map_of_mem hf⟩
    rcases h.contributed_cases hmem with ⟨e, column, failures, -, -, hcontributed⟩ | ⟨c, hc, -⟩
    · have halias := h.find?_minAlias hmem hcontributed
      have htable : last.soFar.table.find? (minAlias f.symbol) =
          some ((column.map f.orient).broadcast batch.rows) :=
        hlast.find?_table (find?_of_bound_before hkept halias) rfl
      rw [map_orient] at halias htable
      exact ⟨column, h.find?_symbol hmem hcontributed, halias, htable⟩
    · cases hc

end Problem

/-! ### The batch -/

/-- Components are read from the columns with their labels. -/
theorem Table.componentColumns_congr {batch batch' : Table} {symbol : String} {index count : Nat}
    (h : ∀ label ∈ componentLabels symbol index count, batch'.find? label = batch.find? label) :
    batch'.componentColumns symbol index count = batch.componentColumns symbol index count := by
  induction count generalizing index with
  | zero => rfl
  | succ count ih =>
    rw [componentColumns, componentColumns, h _ List.mem_cons_self,
      ih fun label hlabel ↦ h label (List.mem_cons_of_mem _ hlabel)]

/-- A variable is read from the columns with its labels. -/
theorem Variable.input_congr {v : Variable} {batch batch' : Table}
    (h : ∀ label ∈ v.columnLabels, batch'.find? label = batch.find? label) :
    v.input batch' = v.input batch := by
  cases hshape : v.shape with
  | scalar =>
    simp only [columnLabels, hshape] at h
    simp only [input, hshape, h v.symbol List.mem_cons_self]
  | vector length =>
    simp only [columnLabels, hshape] at h
    simp only [input, hshape, Table.componentColumns_congr h]

/-- Binding the variables depends on their columns and on nothing else of the batch. -/
theorem bindVariables_congr {batch batch' : Table} {decisions : List Variable} {env : Environment}
    {table : Table}
    (h : ∀ label ∈ decisions.flatMap Variable.columnLabels,
      batch'.find? label = batch.find? label) :
    bindVariables batch' env table decisions = bindVariables batch env table decisions := by
  induction decisions generalizing env table with
  | nil => rfl
  | cons v decisions ih =>
    rw [List.flatMap_cons] at h
    rw [bindVariables, bindVariables,
      Variable.input_congr fun label hlabel ↦ h label (List.mem_append_left _ hlabel)]
    rcases v.input batch with error | ⟨binding, columns⟩
    · rfl
    · dsimp only
      rcases table.insertAll columns with error | next
      · rfl
      · exact ih fun label hlabel ↦ h label (List.mem_append_right _ hlabel)

namespace Problem

/-- Of a batch, a run reads the columns of the variables. -/
theorem run_congr {p : Problem} {batch batch' : Table} (hrows : batch'.rows = batch.rows)
    (h : ∀ label ∈ p.draft.inputLabels, batch'.find? label = batch.find? label) (plan : Plan) :
    p.run batch' plan = p.run batch plan := by
  have hstart : p.start batch' = p.start batch := by
    rw [start, start, bindVariables_congr h, hrows]
  rw [run, run, hstart]

/-! ### The equations -/

/-- In a result, every field with an expression has the column and the failures of the expression
in an environment that is described by the batch and the columns of earlier fields. So nothing
matters of the batch but its number of rows and the columns of the variables. -/
theorem evaluate_solves (p : Problem) (batch : Table) (plan : Plan) :
    (∀ result, (p.evaluateObserved batch plan .silent).2 = .ok result →
      ∀ s ∈ plan.last.upTo, ∃ env, p.StageEnvironment batch plan.policy s result.table env ∧
        ∀ field ∈ p.draft.stageFields s, ∀ e, field.expr? = some e → ∃ values failures,
          e.evaluate env plan.policy = .ok (values, failures) ∧
          result.table.find? field.symbol = some values ∧
          result.failures.filter (·.field = some field.symbol) =
            failures.map fun f ↦ { f with field := some field.symbol }) ∧
    ∀ batch', batch'.rows = batch.rows →
      (∀ label ∈ p.draft.inputLabels, batch'.find? label = batch.find? label) →
      ∀ observer,
        p.evaluateObserved batch' plan observer = p.evaluateObserved batch plan observer := by
  refine ⟨fun result hresult s hs ↦ ?_, fun batch' hrows hcolumns observer ↦ ?_⟩
  · rw [evaluateObserved_silent] at hresult
    obtain ⟨last, rfl, hlast, hstages⟩ := exists_solved hresult
    obtain ⟨progress, hprogress, hkept⟩ := hstages s hs
    refine ⟨progress.env, hprogress.stageEnvironment hlast hkept, fun field hfield e he ↦ ?_⟩
    have hmem : field ∈ p.draft.fieldsOf plan.last.upTo := Draft.mem_fieldsOf.mpr ⟨s, hs, hfield⟩
    obtain ⟨column, failures, hsettle, hcontributed⟩ := hlast.exists_column hmem he
    -- What the expression mentions was bound when its stage began.
    have hsame : e.attemptColumn ⟨progress.env, some field.symbol⟩ =
        e.attemptColumn ⟨last.env, some field.symbol⟩ := by
      refine Expr.attemptColumn_congr (hprogress.rows.trans hlast.rows.symm) fun symbol hsymbol ↦ ?_
      obtain ⟨added, hadded⟩ := hkept
      refine (find?_of_entries_append hadded.symm ?_).symm
      rw [hprogress.bound, Draft.known_before]
      exact p.mem_scope_of_mem_mentions hfield he hsymbol
    obtain ⟨failures', hevaluate, hfailures⟩ := Expr.evaluate_of_field (hsame ▸ hsettle)
    have hfind := hlast.find?_symbol hmem hcontributed
    refine ⟨_, failures', hevaluate, ?_, ?_⟩
    · rw [hprogress.rows]
      exact hlast.find?_table hfind rfl
    · rw [hlast.filter_failures hmem, hcontributed]
      exact hfailures
  · simp only [evaluateObserved, run_congr hrows hcolumns]

end Problem

/-- The small batch with another column. -/
def widerBatch : Table :=
  ⟨⟨[("y", #[7, 8]), ("x", #[1, 2]), ("v[1]", #[3, 4]), ("v[2]", #[5, 6])], by decide⟩,
    by simp [rowCount]⟩

/-- The constraint on the alias has the negated column of the objective, and the column that the
problem does not read makes no difference. -/
theorem smallProblem_evaluate_solves :
    ∃ result env values failures,
      (smallProblem.evaluateObserved smallBatch {} .silent).2 = .ok result ∧
      (smallProblem.evaluateObserved widerBatch {} .silent).2 = .ok result ∧
      smallProblem.StageEnvironment smallBatch .failFast .constraints result.table env ∧
      (Expr.symbol "f_min").evaluate env .failFast = .ok (values, failures) ∧
      result.table.find? "g" = some values := by
  have hok : (smallProblem.evaluateObserved smallBatch {} .silent).2.isOk := by decide +kernel
  rcases hresult : (smallProblem.evaluateObserved smallBatch {} .silent).2 with error | result
  · rw [hresult] at hok
    cases hok
  · obtain ⟨hsolves, hbatch⟩ := smallProblem.evaluate_solves smallBatch {}
    obtain ⟨env, henv, hfields⟩ := hsolves result hresult .constraints (by decide)
    obtain ⟨values, failures, hevaluate, hvalues, -⟩ :=
      hfields (.constraint ⟨"g", "g", .symbol "f_min", .atMost⟩) List.mem_cons_self _ rfl
    have hwider := hbatch widerBatch (by decide) (by decide) .silent
    exact ⟨result, env, values, failures, rfl, by rw [hwider, hresult], henv, hevaluate, hvalues⟩

end Tradeoff
