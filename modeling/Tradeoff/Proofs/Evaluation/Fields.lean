import Tradeoff.Proofs.Evaluation.Outcomes
import Tradeoff.Proofs.Evaluation.Stages
import Tradeoff.Proofs.Table.Columns
import Tradeoff.Proofs.Table.Labels

/-!
# Contributions of fields

A decision variable contributes its columns in the batch (`Variable.of_input_eq_ok`), and any other
field bindings of exactly the symbols it claims, each of which has a column in the table
(`Field.of_contribute_eq_ok`). All these columns have a value for each sample, so that the lengths
of columns are right in every state of an evaluation (`Progress.Sized`).
-/

namespace Tradeoff

/-! ### Decision variables -/

namespace Table

variable {batch : Table} {symbol : String} {index count : Nat}

/-- The columns of components come from the batch, each under its label. -/
theorem of_componentColumns_eq_ok {columns : List (String × Array Float)}
    (h : batch.componentColumns symbol index count = .ok columns) :
    columns.map Prod.fst = componentLabels symbol index count ∧
      ∀ column ∈ columns, column ∈ batch.columns.entries := by
  induction count generalizing index columns with
  | zero =>
    cases h
    exact ⟨rfl, fun _ hmem ↦ absurd hmem List.not_mem_nil⟩
  | succ count ih =>
    unfold componentColumns at h
    split at h
    · cases h
    · next values hfind =>
      split at h
      · cases h
      · next rest hrest =>
        cases h
        obtain ⟨hlabels, hmem⟩ := ih hrest
        refine ⟨by rw [List.map_cons, hlabels, componentLabels], fun column hcolumn ↦ ?_⟩
        rcases List.mem_cons.mp hcolumn with rfl | hcolumn
        · exact SymbolMap.find?_eq_some_iff.mp hfind
        · exact hmem column hcolumn

/-- The columns of components are found if the batch has all labels. -/
theorem exists_componentColumns
    (h : ∀ label ∈ componentLabels symbol index count, label ∈ batch.symbols) :
    ∃ columns, batch.componentColumns symbol index count = .ok columns := by
  induction count generalizing index with
  | zero => exact ⟨[], rfl⟩
  | succ count ih =>
    obtain ⟨columns, hcolumns⟩ := ih fun label hlabel ↦ h label (List.mem_cons_of_mem _ hlabel)
    rcases hfind : batch.find? (componentLabel symbol index) with _ | values
    · exact absurd (h _ List.mem_cons_self) (SymbolMap.find?_eq_none_iff.mp hfind)
    · exact ⟨_, by rw [componentColumns, hfind, hcolumns]⟩

end Table

namespace Variable

variable {v : Variable} {batch : Table}

/-- A variable is bound to its columns in the batch. -/
theorem of_input_eq_ok {binding : Binding} {columns : List (String × Array Float)}
    (h : v.input batch = .ok (binding, columns)) :
    columns.map Prod.fst = v.columnLabels ∧ binding.Fits batch.rows ∧
      ∀ column ∈ columns, column ∈ batch.columns.entries := by
  cases hshape : v.shape with
  | scalar =>
    simp only [input, hshape] at h
    simp only [columnLabels, hshape]
    split at h
    · cases h
    · next values hfind =>
      cases h
      have hmem : (v.symbol, values) ∈ batch.columns.entries :=
        SymbolMap.find?_eq_some_iff.mp hfind
      refine ⟨rfl, batch.hasRows_rows _ hmem, fun column hcolumn ↦ ?_⟩
      rw [List.mem_singleton.mp hcolumn]
      exact hmem
  | vector length =>
    simp only [input, hshape] at h
    simp only [columnLabels, hshape]
    split at h
    · cases h
    · next columns hcolumns =>
      cases h
      obtain ⟨hlabels, hmem⟩ := Table.of_componentColumns_eq_ok hcolumns
      refine ⟨hlabels, fun column hcolumn ↦ ?_, hmem⟩
      obtain ⟨entry, hentry, rfl⟩ := List.mem_map.mp hcolumn
      exact batch.hasRows_rows entry (hmem entry hentry)

/-- A variable is read if the batch has its columns. -/
theorem exists_input (h : ∀ label ∈ v.columnLabels, label ∈ batch.symbols) :
    ∃ binding columns, v.input batch = .ok (binding, columns) := by
  cases hshape : v.shape with
  | scalar =>
    simp only [columnLabels, hshape] at h
    simp only [input, hshape]
    rcases hfind : batch.find? v.symbol with _ | values
    · exact absurd (h _ List.mem_cons_self) (SymbolMap.find?_eq_none_iff.mp hfind)
    · exact ⟨_, _, rfl⟩
  | vector length =>
    simp only [columnLabels, hshape] at h
    simp only [input, hshape]
    obtain ⟨columns, hcolumns⟩ := Table.exists_componentColumns h
    exact ⟨_, _, by rw [hcolumns]⟩

end Variable

/-! ### Fields -/

/-- A binding that has a column with so many values in the table. -/
def Binding.HasColumn (rows : Nat) (binding : Binding) : Prop :=
  binding.Fits rows ∧ ∃ values, binding.column? rows = some values ∧ values.size = rows

theorem Binding.hasColumn_scalar {column : Column} {rows : Nat} (h : column.Fits rows) :
    (Binding.scalar column).HasColumn rows :=
  ⟨h, column.broadcast rows, rfl, h.size_broadcast⟩

/-- A literal is written as a column, also a truth value. -/
theorem Literal.hasColumn_binding (value : Literal) (rows : Nat) :
    value.binding.HasColumn rows := by
  cases value with
  | number value => exact Binding.hasColumn_scalar trivial
  | bool value => exact ⟨trivial, _, rfl, Array.size_replicate⟩

namespace Field

/-- A field binds exactly the symbols that it claims. -/
theorem map_fst_bindings (column : Column) (field : Field) :
    (field.bindings column).map Prod.fst = field.claims := by
  cases field <;> rfl

/-- Everything that a field binds has a column, whether it is the value or its negation. -/
theorem hasColumn_of_mem_bindings {column : Column} {rows : Nat} (h : column.Fits rows)
    {field : Field} {binding : String × Binding} (hmem : binding ∈ field.bindings column) :
    binding.2.HasColumn rows := by
  cases field with
  | objective f =>
    rcases List.mem_cons.mp hmem with rfl | hmem
    · exact Binding.hasColumn_scalar h
    · rw [List.mem_singleton.mp hmem]
      exact Binding.hasColumn_scalar (h.map f.orient)
  | _ =>
    rw [List.mem_singleton.mp hmem]
    exact Binding.hasColumn_scalar h

/-- A field contributes bindings of exactly the symbols it claims, and each has a column. -/
theorem of_contribute_eq_ok {env : Environment} {policy : Policy} {field : Field} {c : Contribution}
    (h : field.contribute env policy = .ok c) :
    c.bindings.map Prod.fst = field.claims ∧
      ∀ binding ∈ c.bindings, binding.2.HasColumn env.rows := by
  rcases field.expr?_cases with ⟨e, hexpr⟩ | ⟨constant, rfl⟩ | ⟨hexpr, hno⟩
  · rw [contribute_of_expr? hexpr] at h
    obtain ⟨⟨column, failures⟩, hsettle, rfl⟩ := map_eq_ok_iff.mp h
    have hfits : column.Fits env.rows :=
      (e.attemptColumn_ends ⟨env, some field.symbol⟩).of_ok (Policy.settle_eq_ok hsettle)
    exact ⟨field.map_fst_bindings column, fun binding ↦ hasColumn_of_mem_bindings hfits⟩
  · cases h
    refine ⟨rfl, fun binding hmem ↦ ?_⟩
    rw [List.mem_singleton.mp hmem]
    exact constant.value.hasColumn_binding env.rows
  · rw [contribute_of_no_expr? hexpr hno] at h
    cases h

/-- A field whose expression mentions bound symbols only contributes unless its values are stored or
a failure is an error. -/
theorem of_contribute_eq_error {env : Environment} {policy : Policy} {field : Field}
    {error : EvalError} (hfits : env.Fits)
    (hbound : ∀ e, field.expr? = some e → ∀ symbol ∈ e.mentions, symbol ∈ env.symbols)
    (h : field.contribute env policy = .error error) :
    (∃ symbol, error = .dataBasedObjective symbol) ∨ ∃ f, error = .failure f := by
  rcases field.expr?_cases with ⟨e, hexpr⟩ | ⟨constant, rfl⟩ | ⟨hexpr, hno⟩
  · rw [contribute_of_expr? hexpr] at h
    have hsettle := map_eq_error_iff.mp h
    exact Or.inr (Expr.failure_of_settle_eq_error hfits (hbound e hexpr) hsettle)
  · cases h
  · rw [contribute_of_no_expr? hexpr hno] at h
    cases h
    exact Or.inl ⟨_, rfl⟩

end Field

/-- The fields of a stage bind exactly what they claim, each with a column. -/
theorem of_contributions_eq_ok {env : Environment} {policy : Policy} {fields : List Field}
    {cs : List Contribution} (h : contributions env policy fields = .ok cs) :
    (cs.flatMap (·.bindings)).map Prod.fst = fields.flatMap Field.claims ∧
      ∀ binding ∈ cs.flatMap (·.bindings), binding.2.HasColumn env.rows := by
  induction fields generalizing cs with
  | nil =>
    cases h
    exact ⟨rfl, fun _ hmem ↦ absurd hmem List.not_mem_nil⟩
  | cons field fields ih =>
    obtain ⟨c, rest, hfield, hfields, rfl⟩ := contributions_cons_eq_ok_iff.mp h
    obtain ⟨hclaims, hcolumns⟩ := Field.of_contribute_eq_ok hfield
    obtain ⟨hclaims', hcolumns'⟩ := ih hfields
    rw [List.flatMap_cons, List.flatMap_cons, List.map_append, hclaims, hclaims']
    exact ⟨rfl, fun binding hmem ↦
      (List.mem_append.mp hmem).elim (hcolumns binding) (hcolumns' binding)⟩

/-- Bindings that have columns all enter the table. -/
theorem of_bindingColumns {rows : Nat} {bindings : List (String × Binding)}
    (h : ∀ binding ∈ bindings, binding.2.HasColumn rows) :
    (bindingColumns rows bindings).map Prod.fst = bindings.map Prod.fst ∧
      ∀ column ∈ bindingColumns rows bindings, column.2.size = rows := by
  induction bindings with
  | nil => exact ⟨rfl, fun _ hmem ↦ absurd hmem List.not_mem_nil⟩
  | cons binding bindings ih =>
    obtain ⟨-, values, hvalues, hsize⟩ := h binding List.mem_cons_self
    obtain ⟨hsymbols, hsizes⟩ := ih fun next hmem ↦ h next (List.mem_cons_of_mem _ hmem)
    have hcons : bindingColumns rows (binding :: bindings) =
        (binding.1, values) :: bindingColumns rows bindings := by
      simp [bindingColumns, hvalues]
    rw [hcons, List.map_cons, List.map_cons, hsymbols]
    refine ⟨rfl, fun column hmem ↦ ?_⟩
    rcases List.mem_cons.mp hmem with rfl | hmem
    · exact hsize
    · exact hsizes column hmem

/-! ### Lengths -/

/-- All columns in a state have so many values. -/
structure Progress.Sized (progress : Progress) (count : Nat) : Prop where
  rows : progress.env.rows = count
  fits : progress.env.Fits
  hasRows : progress.soFar.table.HasRows count

/-- Binding the variables leaves all lengths right. -/
theorem sized_of_bindVariables {batch : Table} {decisions : List Variable} {env env' : Environment}
    {table table' : Table} (h : bindVariables batch env table decisions = .ok (env', table'))
    (hrows : env.rows = batch.rows) (hfits : env.Fits) (htable : table.HasRows batch.rows) :
    env'.rows = batch.rows ∧ env'.Fits ∧ table'.HasRows batch.rows := by
  induction decisions generalizing env table with
  | nil =>
    cases h
    exact ⟨hrows, hfits, htable⟩
  | cons v decisions ih =>
    unfold bindVariables at h
    split at h
    · cases h
    · next binding columns hinput =>
      obtain ⟨-, hbinding, hmem⟩ := Variable.of_input_eq_ok hinput
      split at h
      · cases h
      · next next hinsert =>
        have hnext : next.HasRows batch.rows := htable.insertAll
          (fun column hcolumn ↦ batch.hasRows_rows column (hmem column hcolumn)) hinsert
        exact ih h hrows (hfits.bind (hrows ▸ hbinding)) hnext

namespace Problem

variable {p : Problem}

/-- All lengths are right at the start. -/
theorem sized_start {batch : Table} {start : Progress} (h : p.start batch = .ok start) :
    start.Sized batch.rows := by
  unfold Problem.start at h
  split at h
  · cases h
  · next env table hbind =>
    cases h
    obtain ⟨hrows, hfits, htable⟩ := sized_of_bindVariables hbind rfl
      (Environment.fits_empty _) (Table.hasRows_empty _)
    exact ⟨hrows, hfits, htable⟩

/-- There are no failures at the start. -/
theorem failures_start {batch : Table} {start : Progress} (h : p.start batch = .ok start) :
    start.soFar.failures = [] := by
  unfold Problem.start at h
  split at h
  · cases h
  · cases h
    rfl

/-- A stage leaves all lengths right. -/
theorem sized_advance {progress next : Progress} {rows : Nat} {policy : Policy}
    {fields : List Field} {stage : Stage} {cs : List Contribution} (h : progress.Sized rows)
    (hcs : contributions progress.env policy fields = .ok cs)
    (hnext : p.advance progress stage cs = .ok next) : next.Sized rows := by
  obtain ⟨-, hbindings⟩ := of_contributions_eq_ok hcs
  obtain ⟨-, hsizes⟩ := of_bindingColumns hbindings
  unfold advance at hnext
  split at hnext
  · cases hnext
  · next table htable =>
    cases hnext
    exact ⟨(Environment.rows_bindAll _ _).trans h.rows,
      h.fits.bindAll fun binding hmem ↦ (hbindings binding hmem).1,
      h.hasRows.insertAll (fun column hmem ↦ (hsizes column hmem).trans h.rows) htable⟩

theorem sized_runStages {progress last : Progress} {rows : Nat} {policy : Policy}
    {stages : List Stage} (h : progress.Sized rows)
    (hlast : (p.runStages policy progress stages).result = .ok last) : last.Sized rows := by
  induction stages generalizing progress with
  | nil =>
    cases hlast
    exact h
  | cons stage stages ih =>
    rw [runStages_cons, result_runStage] at hlast
    obtain ⟨next, hstage, hrest⟩ := bind_eq_ok_iff.mp hlast
    obtain ⟨cs, hcs, hnext⟩ := bind_eq_ok_iff.mp hstage
    exact ih (sized_advance h hcs hnext) hrest

/-- Every column of a result has a value for each row of the batch. -/
theorem hasRows_of_evaluate_eq_ok {batch : Table} {plan : Plan} {result : Evaluation}
    (h : p.evaluate batch plan = .ok result) : result.table.HasRows batch.rows := by
  obtain ⟨start, last, hstart, hlast, rfl⟩ := evaluate_eq_ok_iff.mp h
  exact (sized_runStages (sized_start hstart) hlast).hasRows

end Problem

end Tradeoff
