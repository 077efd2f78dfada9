import Tradeoff.Proofs.Evaluation.Fields
import Tradeoff.Proofs.Evaluation.Row

/-!
# One row of a run

If failures are confined to their samples, the evaluation of a problem over one row of a batch is
that row of its evaluation over the batch (`Problem.evaluate_atRow`): the same columns with the
values for the sample, and the failures of the sample. `Problem.evaluate_perRow` tells the same
without `atRow`.

The failures to report are the first ones of each sample, and which of them are the first in one row
does not depend on other samples (`firstPerSample_filterMap`).
-/

namespace Tradeoff

variable {index : Nat}

/-! ### Tables -/

theorem size_rowOf (index : Nat) (values : Array Float) : (rowOf index values).size = 1 := rfl

theorem rowOf_map {values : Array Float} (h : index < values.size) (g : Float → Float) :
    rowOf index (values.map g) = (rowOf index values).map g := by
  simp [rowOf, h]

theorem rowOf_replicate {rows : Nat} (h : index < rows) (value : Float) :
    rowOf index (Array.replicate rows value) = Array.replicate 1 value := by
  simp [rowOf, h]

/-- Row `index` of named columns. -/
def columnsAtRow (index : Nat) (columns : List (String × Array Float)) :
    List (String × Array Float) :=
  columns.map fun column ↦ (column.1, rowOf index column.2)

theorem map_fst_columnsAtRow (columns : List (String × Array Float)) :
    (columnsAtRow index columns).map Prod.fst = columns.map Prod.fst := by
  rw [columnsAtRow, List.map_map]
  rfl

namespace Table

/-- Row `index` of a table. -/
def atRow (index : Nat) (t : Table) : Table :=
  ⟨t.columns.mapValues (rowOf index), by
    intro entry hmem
    obtain ⟨first, hfirst, rfl⟩ := List.mem_map.mp hmem
    rcases h : t.columns.entries with _ | ⟨column, columns⟩
    · rw [h] at hfirst
      exact absurd hfirst List.not_mem_nil
    · simp only [SymbolMap.mapValues, h]
      rfl⟩

variable {t : Table}

theorem entries_atRow :
    (t.atRow index).columns.entries = columnsAtRow index t.columns.entries := rfl

theorem symbols_atRow : (t.atRow index).symbols = t.symbols := map_fst_columnsAtRow _

/-- In one row, a symbol stands for one value of its column. -/
theorem find?_atRow (symbol : String) :
    (t.atRow index).find? symbol = (t.find? symbol).map (rowOf index) :=
  SymbolMap.find?_mapValues _ _ _

/-- All columns of one row have one value. -/
theorem hasRows_atRow (t : Table) (index : Nat) : (t.atRow index).HasRows 1 := by
  intro entry hmem
  obtain ⟨column, -, rfl⟩ := List.mem_map.mp hmem
  exact size_rowOf _ _

/-- One row is left, since the columns of a table with rows are not empty. -/
theorem rows_atRow (h : index < t.rows) : (t.atRow index).rows = 1 := by
  rcases hentries : t.columns.entries with _ | ⟨column, columns⟩
  · rw [rows, hentries] at h
    exact absurd h (Nat.not_lt_zero _)
  · rw [rows, entries_atRow, hentries]
    rfl

/-- Adding a column, or being refused, goes together with taking a row. -/
theorem insert_atRow {rows : Nat} (ht : t.HasRows rows) (symbol : String) {values : Array Float}
    (hsize : values.size = rows) :
    (t.insert symbol values).map (atRow index) =
      (t.atRow index).insert symbol (rowOf index values) := by
  by_cases hnew : symbol ∈ t.symbols
  · have hnew' : symbol ∈ (t.atRow index).symbols := by
      rw [symbols_atRow]
      exact hnew
    rw [insert_of_mem hnew, insert_of_mem hnew']
    rfl
  · obtain ⟨next, hnext, -, hentries⟩ := ht.exists_insert hnew hsize
    obtain ⟨next', hnext', -, hentries'⟩ :=
      (t.hasRows_atRow index).exists_insert (symbols_atRow ▸ hnew) (size_rowOf index values)
    rw [hnext, hnext']
    refine congrArg Except.ok (ext_entries ?_)
    rw [hentries', entries_atRow, entries_atRow, hentries]
    simp [columnsAtRow]

theorem insertAll_atRow {rows : Nat} (ht : t.HasRows rows) {columns : List (String × Array Float)}
    (hsizes : ∀ column ∈ columns, column.2.size = rows) :
    (t.insertAll columns).map (atRow index) =
      (t.atRow index).insertAll (columnsAtRow index columns) := by
  induction columns generalizing t with
  | nil => rfl
  | cons column columns ih =>
    obtain ⟨symbol, values⟩ := column
    have hsize : values.size = rows := hsizes (symbol, values) List.mem_cons_self
    have hcons : columnsAtRow index ((symbol, values) :: columns) =
        (symbol, rowOf index values) :: columnsAtRow index columns := rfl
    rw [hcons, insertAll_cons, insertAll_cons, ← insert_atRow ht symbol hsize]
    by_cases hnew : symbol ∈ t.symbols
    · rw [insert_of_mem hnew]
      rfl
    · obtain ⟨next, hnext, hrows, -⟩ := ht.exists_insert hnew hsize
      rw [hnext]
      exact ih hrows fun column hmem ↦ hsizes column (List.mem_cons_of_mem _ hmem)

end Table

/-! ### Failures to report -/

/-- The first failure of the sample is the first failure in its row: whether a failure is the first
of its sample does not depend on failures of other samples. -/
theorem firstPerSample_filterMap {seen seen' : List (Option Nat)}
    (h : some 0 ∈ seen' ↔ some index ∈ seen) (failures : List Failure) :
    firstPerSample seen' (failures.filterMap (Failure.atRow? index)) =
      (firstPerSample seen failures).filterMap (Failure.atRow? index) := by
  induction failures generalizing seen seen' with
  | nil => rfl
  | cons f failures ih =>
    -- Only a failure of the sample changes whether a failure of the sample has been seen.
    by_cases hsample : f.sample = some index
    · have hf : Failure.atRow? index f = some { f with sample := some 0 } := if_pos hsample
      rw [List.filterMap_cons_some hf, firstPerSample, firstPerSample, hsample]
      by_cases hseen : some index ∈ seen
      · rw [if_pos hseen, if_pos (h.mpr hseen)]
        exact ih h
      · rw [if_neg hseen, if_neg (mt h.mp hseen), List.filterMap_cons_some hf]
        exact congrArg _ (ih (by simp))
    · have hf : Failure.atRow? index f = none := if_neg hsample
      rw [List.filterMap_cons_none hf, firstPerSample]
      by_cases hseen : f.sample ∈ seen
      · rw [if_pos hseen]
        exact ih h
      · rw [if_neg hseen, List.filterMap_cons_none hf]
        refine ih (h.trans ?_)
        rw [List.mem_cons]
        exact ⟨Or.inr, fun hmem ↦ hmem.resolve_left fun heq ↦ hsample heq.symm⟩

/-- The failures of a row are those of its sample, told of the only sample there is. -/
theorem filter_eq_map_filterMap (failures : List Failure) :
    failures.filter (·.sample = some index) =
      (failures.filterMap (Failure.atRow? index)).map fun f ↦ { f with sample := some index } := by
  induction failures with
  | nil => rfl
  | cons f failures ih =>
    by_cases hsample : f.sample = some index
    · have hf : Failure.atRow? index f = some { f with sample := some 0 } := if_pos hsample
      rw [List.filterMap_cons_some hf, List.filter_cons_of_pos (by simpa using hsample), ih,
        List.map_cons, ← hsample]
    · have hf : Failure.atRow? index f = none := if_neg hsample
      rw [List.filterMap_cons_none hf, List.filter_cons_of_neg (by simpa using hsample), ih]

/-- The failures to report in a row are those to report for its sample. -/
theorem Policy.settle_atRow {α β : Type} (a : Attempt Failure α) (g : α → β) :
    perRow.settle (a.atRow index g) =
      (perRow.settle a).map fun settled ↦
        (g settled.1, settled.2.filterMap (Failure.atRow? index)) := by
  obtain ⟨notes, error | value⟩ := a
  · rfl
  · have hfirst : firstPerSample [] (notes.filterMap (Failure.atRow? index)) =
        (firstPerSample [] notes).filterMap (Failure.atRow? index) :=
      firstPerSample_filterMap (by simp) notes
    exact congrArg (fun failures ↦ Except.ok (g value, failures)) hfirst

/-! ### Fields -/

/-- Row `index` of what a field contributes. -/
def Contribution.atRow (index : Nat) (c : Contribution) : Contribution :=
  ⟨c.bindings.map fun binding ↦ (binding.1, binding.2.atRow index),
    c.failures.filterMap (Failure.atRow? index)⟩

/-- The bindings of a field for one row have the values of the sample. -/
theorem Field.bindings_atRow {rows : Nat} (hindex : index < rows) {column : Column}
    (hfits : column.Fits rows) (field : Field) :
    field.bindings (column.atRow index) =
      (field.bindings column).map fun binding ↦ (binding.1, binding.2.atRow index) := by
  have hmap (g : Float → Float) : (column.map g).atRow index = (column.atRow index).map g := by
    cases column with
    | constant value => rfl
    | samples values => exact congrArg Column.samples (rowOf_map (hfits.symm ▸ hindex) g)
  cases field <;> simp [bindings, Binding.atRow, hmap]

/-- A field contributes to one row what it contributes to the row's sample. An error is the same,
since no error comes from a sample. -/
theorem Field.contribute_atRow {env : Environment} (hfits : env.Fits) (hindex : index < env.rows)
    (field : Field) :
    field.contribute (env.atRow index) .perRow =
      (field.contribute env .perRow).map (Contribution.atRow index) := by
  rcases field.expr?_cases with ⟨e, hexpr⟩ | ⟨constant, rfl⟩ | ⟨hexpr, hno⟩
  · have hrow : (e.attemptColumn ⟨env, some field.symbol⟩).atRow index (Column.atRow index) =
        e.attemptColumn ⟨env.atRow index, some field.symbol⟩ :=
      Expr.attemptColumn_atRow hfits hindex e
    rw [contribute_of_expr? hexpr, contribute_of_expr? hexpr, ← hrow, Policy.settle_atRow]
    rcases hsettle : Policy.perRow.settle (e.attemptColumn ⟨env, some field.symbol⟩) with
      error | ⟨column, failures⟩
    · rfl
    · have hcolumn : column.Fits env.rows :=
        (e.attemptColumn_ends ⟨env, some field.symbol⟩).of_ok (Policy.settle_eq_ok hsettle)
      simp only [Except.map, Contribution.atRow, Field.bindings_atRow hindex hcolumn]
  · rw [contribute_constant, contribute_constant]
    cases hvalue : constant.value <;> rfl
  · rw [contribute_of_no_expr? hexpr hno, contribute_of_no_expr? hexpr hno]
    rfl

theorem contributions_atRow {env : Environment} (hfits : env.Fits) (hindex : index < env.rows)
    (fields : List Field) :
    contributions (env.atRow index) .perRow fields =
      (contributions env .perRow fields).map (List.map (Contribution.atRow index)) := by
  induction fields with
  | nil => rfl
  | cons field fields ih =>
    rw [contributions, contributions, Field.contribute_atRow hfits hindex, ih]
    rcases field.contribute env .perRow with error | c
    · rfl
    · rcases contributions env .perRow fields with error | cs <;> rfl

/-! ### Bindings -/

/-- Changing values goes together with inserting an entry. -/
theorem SymbolMap.put_map {α β : Type} (g : α → β) (symbol : String) (value : α)
    (entries : List (String × α)) :
    put symbol (g value) (entries.map fun entry ↦ (entry.1, g entry.2)) =
      (put symbol value entries).map fun entry ↦ (entry.1, g entry.2) := by
  induction entries with
  | nil => rfl
  | cons entry entries ih =>
    rw [List.map_cons, put, put, ih]
    by_cases h : entry.1 = symbol <;> simp [h]

/-- Binding goes together with taking a row. -/
theorem Environment.bindAll_atRow (env : Environment) (bindings : List (String × Binding)) :
    (env.atRow index).bindAll (bindings.map fun binding ↦ (binding.1, binding.2.atRow index)) =
      (env.bindAll bindings).atRow index := by
  induction bindings generalizing env with
  | nil => rfl
  | cons binding bindings ih =>
    obtain ⟨symbol, binding⟩ := binding
    have hbind : (env.atRow index).bind symbol (binding.atRow index) =
        (env.bind symbol binding).atRow index := by
      simp only [bind, atRow, SymbolMap.set, SymbolMap.mapValues, SymbolMap.put_map]
    rw [List.map_cons, bindAll_cons, bindAll_cons, hbind, ih]

/-- The columns written for bindings of one row are the values of the sample. -/
theorem bindingColumns_atRow {rows : Nat} (hindex : index < rows)
    (bindings : List (String × Binding)) :
    bindingColumns 1 (bindings.map fun binding ↦ (binding.1, binding.2.atRow index)) =
      columnsAtRow index (bindingColumns rows bindings) := by
  have hcolumn (binding : Binding) :
      (binding.atRow index).column? 1 = (binding.column? rows).map (rowOf index) := by
    rcases binding with (value | values) | components | flag
    · exact congrArg some (rowOf_replicate hindex value).symm
    · rfl
    · rfl
    · exact congrArg some (rowOf_replicate hindex _).symm
  induction bindings with
  | nil => rfl
  | cons binding bindings ih =>
    rw [bindingColumns, columnsAtRow] at ih ⊢
    rw [List.map_cons, List.filterMap_cons, hcolumn]
    rcases hvalues : binding.2.column? rows with _ | values <;> simp [bindingColumns, hvalues, ih]

/-! ### Stages -/

/-- Row `index` of a result. -/
def Evaluation.atRow (index : Nat) (result : Evaluation) : Evaluation :=
  { result with
    table := result.table.atRow index
    latestFailures := result.latestFailures.filterMap (Failure.atRow? index) }

/-- Row `index` of a state. -/
def Progress.atRow (index : Nat) (progress : Progress) : Progress :=
  ⟨progress.env.atRow index, progress.soFar.atRow index⟩

namespace Problem

variable {p : Problem}

/-- A stage moves on in one row as it does in all. -/
theorem advance_atRow {progress : Progress} {rows : Nat} (h : progress.Sized rows)
    (hindex : index < rows) {policy : Policy} {fields : List Field} {cs : List Contribution}
    (hcs : contributions progress.env policy fields = .ok cs) (stage : Stage) :
    p.advance (progress.atRow index) stage (cs.map (Contribution.atRow index)) =
      (p.advance progress stage cs).map (Progress.atRow index) := by
  obtain ⟨-, hsizes⟩ := of_bindingColumns (of_contributions_eq_ok hcs).2
  have hbindings : (cs.map (Contribution.atRow index)).flatMap (·.bindings) =
      (cs.flatMap (·.bindings)).map fun binding ↦ (binding.1, binding.2.atRow index) := by
    rw [List.flatMap_map, List.map_flatMap]
    rfl
  have hfailures : (cs.map (Contribution.atRow index)).flatMap (·.failures) =
      (cs.flatMap (·.failures)).filterMap (Failure.atRow? index) := by
    rw [List.flatMap_map, List.filterMap_flatMap]
    rfl
  have hinsert : (progress.soFar.table.insertAll
        (bindingColumns progress.env.rows (cs.flatMap (·.bindings)))).map (Table.atRow index) = _ :=
    Table.insertAll_atRow h.hasRows fun column hmem ↦ (hsizes column hmem).trans h.rows
  rw [← bindingColumns_atRow (h.rows.symm ▸ hindex)] at hinsert
  have hcompleted (table : Table) :
      p.completed (progress.atRow index) stage (cs.map (Contribution.atRow index))
          (table.atRow index) =
        (p.completed progress stage cs table).atRow index := by
    simp only [completed, hbindings, hfailures, Progress.atRow, Evaluation.atRow,
      Environment.bindAll_atRow, Evaluation.recordAll, constraintsAfter, List.filterMap_append,
      List.filterMap_reverse]
  have hrows : (progress.atRow index).env.rows = 1 := rfl
  have htable : (progress.atRow index).soFar.table = progress.soFar.table.atRow index := rfl
  rw [advance, advance, hbindings, hrows, htable, ← hinsert]
  generalize progress.soFar.table.insertAll _ = inserted
  cases inserted with
  | error error => rfl
  | ok table => exact congrArg Except.ok (hcompleted table)

theorem runStages_atRow {rows : Nat} (hindex : index < rows) (stages : List Stage)
    {progress : Progress} (h : progress.Sized rows) :
    (p.runStages .perRow (progress.atRow index) stages).result =
      (p.runStages .perRow progress stages).result.map (Progress.atRow index) := by
  induction stages generalizing progress with
  | nil => rfl
  | cons stage stages ih =>
    have henv : (progress.atRow index).env = progress.env.atRow index := rfl
    -- Taking a row commutes with what the fields contribute, and with going on from there.
    rw [runStages_cons, runStages_cons, result_runStage, result_runStage, henv,
      contributions_atRow h.fits (h.rows.symm ▸ hindex)]
    rcases hcs : contributions progress.env .perRow (p.draft.stageFields stage) with error | cs
    · rfl
    · simp only [Except.map, Except.bind]
      rw [advance_atRow h hindex hcs]
      rcases hnext : p.advance progress stage cs with error | next
      · rfl
      · exact ih (sized_advance h hcs hnext)

end Problem

/-! ### Decision variables -/

/-- The columns of a vector variable for one row. -/
theorem Table.componentColumns_atRow (batch : Table) (symbol : String) (first count : Nat) :
    (batch.atRow index).componentColumns symbol first count =
      (batch.componentColumns symbol first count).map (columnsAtRow index) := by
  induction count generalizing first with
  | zero => rfl
  | succ count ih =>
    rw [componentColumns, componentColumns, find?_atRow, ih]
    rcases batch.find? (componentLabel symbol first) with _ | values
    · rfl
    · rcases batch.componentColumns symbol (first + 1) count with label | columns <;> rfl

/-- A variable is read from one row as it is from the batch. -/
theorem Variable.input_atRow (v : Variable) (batch : Table) :
    v.input (batch.atRow index) =
      (v.input batch).map fun input ↦ (input.1.atRow index, columnsAtRow index input.2) := by
  unfold input
  cases v.shape with
  | scalar =>
    simp only [Table.find?_atRow]
    rcases batch.find? v.symbol with _ | values <;> rfl
  | vector length =>
    simp only [Table.componentColumns_atRow]
    rcases batch.componentColumns v.symbol 1 length with label | columns
    · rfl
    · simp [Except.map, Binding.atRow, Column.atRow, columnsAtRow]

theorem bindVariables_atRow (batch : Table) (decisions : List Variable) (env : Environment)
    {table : Table} (htable : table.HasRows batch.rows) :
    bindVariables (batch.atRow index) (env.atRow index) (table.atRow index) decisions =
      (bindVariables batch env table decisions).map fun bound ↦
        (bound.1.atRow index, bound.2.atRow index) := by
  induction decisions generalizing env table with
  | nil => rfl
  | cons v decisions ih =>
    rw [bindVariables, bindVariables, Variable.input_atRow]
    rcases hinput : v.input batch with error | ⟨binding, columns⟩
    · rfl
    · have hsizes : ∀ column ∈ columns, column.2.size = batch.rows := fun column hcolumn ↦
        batch.hasRows_rows column ((Variable.of_input_eq_ok hinput).2.2 column hcolumn)
      simp only [Except.map]
      rw [← Table.insertAll_atRow htable hsizes]
      rcases hnext : table.insertAll columns with error | next
      · rfl
      · have hbind : (env.atRow index).bind v.symbol (binding.atRow index) =
            (env.bind v.symbol binding).atRow index :=
          Environment.bindAll_atRow env [(v.symbol, binding)]
        simp only [Except.map]
        rw [hbind]
        exact ih _ (htable.insertAll hsizes hnext)

namespace Problem

variable {p : Problem} {batch : Table}

/-- An evaluation of one row starts with that row of the start. -/
theorem start_atRow (hindex : index < batch.rows) :
    p.start (batch.atRow index) = (p.start batch).map (Progress.atRow index) := by
  have hbound : bindVariables (batch.atRow index) _ _ p.draft.decisions = _ :=
    bindVariables_atRow batch p.draft.decisions (.empty batch.rows) (Table.hasRows_empty _)
  have henv : (Environment.empty batch.rows).atRow index = .empty 1 := rfl
  have htable : Table.empty.atRow index = .empty := rfl
  rw [henv, htable] at hbound
  rw [start, start, Table.rows_atRow hindex, hbound]
  rcases bindVariables batch (.empty batch.rows) .empty p.draft.decisions with
    error | ⟨env, table⟩ <;> rfl

/-! ### Problems -/

/-- The evaluation of a problem over one row of a batch is that row of its evaluation. -/
theorem evaluate_atRow (hindex : index < batch.rows) (last : Stage) :
    p.evaluate (batch.atRow index) ⟨.perRow, last⟩ =
      (p.evaluate batch ⟨.perRow, last⟩).map (Evaluation.atRow index) := by
  rw [evaluate_eq, evaluate_eq, start_atRow hindex]
  rcases hstart : p.start batch with error | start
  · rfl
  · simp only [Except.map, Except.bind]
    rw [runStages_atRow hindex _ (sized_start hstart)]
    rcases (p.runStages .perRow start last.upTo).result with error | progress <;> rfl

/-- Over a batch in which failures are confined to their samples, every row is evaluated by itself:
an evaluation ends in an error exactly if that of each row does, in the same. Else it has the
columns that the evaluation of the row has, with its values there, and the failures of the sample in
their order. -/
theorem evaluate_perRow (p : Problem) (batch : Table) (last : Stage) (hindex : index < batch.rows) :
    (∀ error, p.evaluate batch ⟨.perRow, last⟩ = .error error ↔
      p.evaluate (batch.atRow index) ⟨.perRow, last⟩ = .error error) ∧
    ∀ result, p.evaluate batch ⟨.perRow, last⟩ = .ok result →
      ∃ single, p.evaluate (batch.atRow index) ⟨.perRow, last⟩ = .ok single ∧
        single.table.symbols = result.table.symbols ∧
        (∀ symbol values, result.table.find? symbol = some values →
          ∃ value, values[index]? = some value ∧ single.table.find? symbol = some #[value]) ∧
        (∀ f ∈ single.failures, f.sample = some 0) ∧
        result.failures.filter (·.sample = some index) =
          single.failures.map fun f ↦ { f with sample := some index } := by
  have hrow : p.evaluate (batch.atRow index) ⟨.perRow, last⟩ = _ := evaluate_atRow hindex last
  refine ⟨fun error ↦ ?_, fun result hresult ↦ ?_⟩
  · rw [hrow]
    rcases p.evaluate batch ⟨.perRow, last⟩ with error' | result <;> simp [Except.map]
  · rw [hresult] at hrow
    -- What is left is to tell of the row of the result without `atRow`.
    have hfailures : (result.atRow index).failures =
        result.failures.filterMap (Failure.atRow? index) := List.filterMap_reverse.symm
    refine ⟨result.atRow index, hrow, Table.symbols_atRow, fun symbol values hfind ↦ ?_,
      fun f hf ↦ ?_, ?_⟩
    · have hsize : values.size = batch.rows := hasRows_of_evaluate_eq_ok hresult (symbol, values)
        (SymbolMap.find?_eq_some_iff.mp hfind)
      have hvalue : values[index]? = some values[index] := Array.getElem?_eq_getElem (by omega)
      refine ⟨values[index], hvalue, ?_⟩
      show (result.table.atRow index).find? symbol = _
      rw [Table.find?_atRow, hfind, Option.map_some, rowOf, hvalue, Option.getD_some]
    · rw [hfailures] at hf
      obtain ⟨f', -, hf'⟩ := List.mem_filterMap.mp hf
      unfold Failure.atRow? at hf'
      split at hf'
      · cases hf'
        rfl
      · cases hf'
    · rw [hfailures]
      exact filter_eq_map_filterMap result.failures

end Problem

/-! ### A quotient -/

/-- A draft whose objective is one over its variable. -/
def quotientDraft : Draft :=
  { Draft.empty "quotient" with
    decisions := [⟨"x", "x", .scalar, none, none, none⟩]
    objectives := [⟨"f", "f", some (.divide (.number 1) (.symbol "x")), false, none, none⟩] }

/-- The problem of the draft. -/
def quotientProblem : Problem := ⟨quotientDraft, by decide +kernel⟩

/-- A batch of two samples, of which the second is zero. -/
def quotientBatch : Table := ⟨⟨[("x", #[2, 0])], by decide⟩, by simp [rowCount]⟩

/-- In the row of the zero there is one failure, and in the evaluation of the row the same. -/
theorem quotientProblem_evaluate_perRow :
    1 < quotientBatch.rows ∧
      ∃ result single, quotientProblem.evaluate quotientBatch ⟨.perRow, .objectives⟩ = .ok result ∧
        quotientProblem.evaluate (quotientBatch.atRow 1) ⟨.perRow, .objectives⟩ = .ok single ∧
        single.table.symbols = result.table.symbols ∧
        (∀ f ∈ single.failures, f.sample = some 0) ∧
        result.failures.filter (·.sample = some 1) =
          single.failures.map fun f ↦ { f with sample := some 1 } := by
  have hindex : 1 < quotientBatch.rows := by decide
  have hok : (quotientProblem.evaluate quotientBatch ⟨.perRow, .objectives⟩).isOk := by
    decide +kernel
  refine ⟨hindex, ?_⟩
  rcases hresult : quotientProblem.evaluate quotientBatch ⟨.perRow, .objectives⟩ with error | result
  · rw [hresult] at hok
    cases hok
  · obtain ⟨single, hsingle, hsymbols, -, hfailures⟩ :=
      (quotientProblem.evaluate_perRow quotientBatch .objectives hindex).2 result hresult
    exact ⟨result, single, rfl, hsingle, hsymbols, hfailures⟩

end Tradeoff
