import Mathlib.Logic.Relation
import Tradeoff.Proofs.Evaluation.NotANumber
import Tradeoff.Proofs.Evaluation.RowRun
import Tradeoff.Proofs.Evaluation.Solution

/-!
# Why cells are not numbers

If a problem and a batch have numbers everywhere, an evaluation that confines failures to their
samples tells for every cell of its result that is not a number why it is none. The value of a field
is not a number exactly if a failure of the field is reported for the sample or the expression
mentions what is not a number there already (`Problem.Solved.isNaNAt_iff`). So from every such cell
a chain of such cells leads back to one for which there is a report
(`Problem.Solved.exists_origin`).

`Problem.isNaN_iff_reported` puts this together. There is one report at most for a field and a
sample, and none for a cell with a number.
-/

namespace Tradeoff

/-! ### Cells -/

namespace Table

/-- The value of a column for a sample. -/
def cell? (t : Table) (label : String) (sample : Nat) : Option Float :=
  (t.find? label).bind (·[sample]?)

/-- The column has a value for the sample, which is not a number. -/
def IsNaNAt (t : Table) (label : String) (sample : Nat) : Prop :=
  ∃ value, t.cell? label sample = some value ∧ value.isNaN

theorem isNaNAt_iff_of_cell? {t : Table} {label : String} {sample : Nat} {value : Float}
    (h : t.cell? label sample = some value) : t.IsNaNAt label sample ↔ value.isNaN := by
  simp [IsNaNAt, h]

end Table

namespace Column

/-- A change that keeps numbers keeps the cells with numbers. -/
theorem isNaNAt_map {f : Float → Float} (hf : ∀ value, (f value).isNaN = value.isNaN)
    {column : Column} {sample : Nat} :
    (column.map f).IsNaNAt sample ↔ column.IsNaNAt sample := by
  cases column with
  | constant value => simp only [IsNaNAt, map, get, hf]
  | samples values =>
    by_cases hsample : sample < values.size
    · have hget : (map f (samples values)).get sample = f values[sample] := by
        simp [map, get, hsample]
      have hget' : (samples values).get sample = values[sample] := by simp [get, hsample]
      rw [IsNaNAt, IsNaNAt, hget, hget', hf]
    · simp [IsNaNAt, map, get, hsample]

end Column

/-- Orienting a value keeps it a number or none. -/
theorem Objective.isNaN_orient (f : Objective) (value : Float) :
    (f.orient value).isNaN = value.isNaN := by
  rw [orient]
  split
  · exact isNaN_neg value
  · rfl

/-! ### Where the data are numbers -/

namespace Draft

/-- All constants and literals that are not truth values are numbers. -/
structure Numeric (d : Draft) : Prop where
  constant : ∀ c ∈ d.constants, ∀ value, c.value = .number value → ¬value.isNaN
  literal : ∀ s, ∀ field ∈ d.stageFields s, ∀ e, field.expr? = some e →
    ∀ value, .number value ∈ e.nodes → ¬value.isNaN

/-- The columns of the decision variables in the batch have numbers only. -/
def NumericOver (d : Draft) (batch : Table) : Prop :=
  ∀ label ∈ d.inputLabels, ∀ values, batch.find? label = some values →
    ∀ value ∈ values, ¬value.isNaN

theorem mem_constants {d : Draft} {s : Stage} {c : Constant}
    (h : Field.constant c ∈ d.stageFields s) : c ∈ d.constants := by
  cases s with
  | constants => simpa [stageFields] using h
  | _ => simp [stageFields] at h

theorem mem_objectives {d : Draft} {s : Stage} {f : Objective}
    (h : Field.objective f ∈ d.stageFields s) : f ∈ d.objectives := by
  cases s with
  | objectives => simpa [stageFields] using h
  | _ => simp [stageFields] at h

/-- The first column is computed from the second: it belongs to a field whose expression mentions
the second, or it has the oriented values of an objective. -/
inductive Reads (d : Draft) : String → String → Prop where
  | mention {s : Stage} {field : Field} {e : Expr} {symbol : String}
      (hfield : field ∈ d.stageFields s) (he : field.expr? = some e)
      (hsymbol : symbol ∈ e.mentions) : Reads d field.symbol symbol
  | oriented {f : Objective} (hf : f ∈ d.objectives) : Reads d (minAlias f.symbol) f.symbol

/-- The first cell of a sample is computed from the second through cells that all are not
numbers. -/
def TracesTo (d : Draft) (table : Table) (sample : Nat) : String → String → Prop :=
  Relation.ReflTransGen fun label source ↦ d.Reads label source ∧ table.IsNaNAt source sample

end Draft

/-- The columns of a variable come from the batch. -/
theorem Variable.of_mem_given {v : Variable} {batch : Table} {label : String}
    {values : Array Float} (hinput : v.input batch = .ok (v.given batch))
    (h : (label, values) ∈ (v.given batch).2) :
    label ∈ v.columnLabels ∧ batch.find? label = some values := by
  obtain ⟨hlabels, -, hcopied⟩ := of_input_eq_ok hinput
  exact ⟨hlabels ▸ List.mem_map_of_mem h, SymbolMap.find?_eq_some_iff.mpr (hcopied _ h)⟩

namespace Problem

namespace Solved

variable {p : Problem} {batch : Table} {policy : Policy} {stages : List Stage}
  {progress : Progress} {label : String} {sample : Nat}

/-! ### Cells and bindings -/

/-- A symbol that is bound to a column has its values in the table. -/
theorem cell?_of_find? (h : p.Solved batch policy stages progress)
    (hsample : sample < batch.rows) {column : Column}
    (hfind : progress.env.find? label = some (.scalar column)) :
    progress.soFar.table.cell? label sample = some (column.get sample) := by
  have hfits : column.Fits batch.rows := h.rows ▸ h.fits.of_find? hfind
  rw [Table.cell?, h.find?_table hfind rfl, Option.bind_some, hfits.getElem?_broadcast hsample]

/-- Only samples of the batch have cells. -/
theorem lt_rows_of_isNaNAt (h : p.Solved batch policy stages progress)
    (hisNaN : progress.soFar.table.IsNaNAt label sample) : sample < batch.rows := by
  obtain ⟨value, hcell, -⟩ := hisNaN
  obtain ⟨values, hvalues, hvalue⟩ := Option.bind_eq_some_iff.mp hcell
  have hsize : values.size = batch.rows := h.hasRows _ (SymbolMap.find?_eq_some_iff.mp hvalues)
  obtain ⟨hlt, -⟩ := Array.getElem?_eq_some_iff.mp hvalue
  exact lt_of_lt_of_eq hlt hsize

/-- A cell that is not a number is one of a field, whose symbol is bound to the column. -/
theorem exists_column_of_isNaNAt (h : p.Solved batch policy stages progress)
    (hbatch : p.draft.NumericOver batch)
    (hisNaN : progress.soFar.table.IsNaNAt label sample) :
    (∃ field ∈ p.draft.fieldsOf stages, label ∈ field.claims) ∧
      ∃ column, progress.env.find? label = some (.scalar column) ∧ column.IsNaNAt sample := by
  have hsample := h.lt_rows_of_isNaNAt hisNaN
  obtain ⟨value, hcell, hvalue⟩ := hisNaN
  obtain ⟨values, hvalues, hget⟩ := Option.bind_eq_some_iff.mp hcell
  have hmem : value ∈ values := Array.mem_of_getElem? hget
  have hentry := SymbolMap.find?_eq_some_iff.mp hvalues
  rw [h.entries, List.mem_append] at hentry
  rcases hentry with hentry | hentry
  · obtain ⟨v, hv, hcolumn⟩ := List.mem_flatMap.mp hentry
    obtain ⟨hlabel, hfind⟩ := Variable.of_mem_given (h.inputs v hv) hcolumn
    have hinput : label ∈ p.draft.inputLabels := List.mem_flatMap.mpr ⟨v, hv, hlabel⟩
    exact absurd hvalue (hbatch label hinput values hfind value hmem)
  · obtain ⟨⟨symbol, binding⟩, hbinding, heq⟩ := List.mem_filterMap.mp hentry
    obtain ⟨_, hcolumn, heq⟩ := Option.map_eq_some_iff.mp heq
    cases heq
    obtain ⟨field, hfield, hcontributed⟩ := List.mem_flatMap.mp hbinding
    have hclaims := (Field.of_contribute_eq_ok (h.contributes field hfield)).1
    have hfind := h.find?_contributed hfield hcontributed
    refine ⟨⟨field, hfield, hclaims ▸ List.mem_map_of_mem hcontributed⟩, ?_⟩
    cases binding with
    | scalar column =>
      have hsame := h.cell?_of_find? hsample hfind
      rw [hcell] at hsame
      cases hsame
      exact ⟨column, hfind, hvalue⟩
    | vector components => cases hcolumn
    | flag truth =>
      -- A truth value is one or zero in the table.
      cases hcolumn
      rw [Array.eq_of_mem_replicate hmem] at hvalue
      cases truth <;> exact absurd hvalue (by decide +kernel)

/-- Components of vectors are numbers. -/
theorem not_isNaNAt_component (h : p.Solved batch policy stages progress)
    (hbatch : p.draft.NumericOver batch) (symbol : String) (index : Nat) :
    ¬progress.soFar.table.IsNaNAt (componentLabel symbol index) sample := by
  intro hisNaN
  obtain ⟨⟨field, hfield, hclaim⟩, -⟩ := h.exists_column_of_isNaNAt hbatch hisNaN
  obtain ⟨s, -, hmem⟩ := Draft.mem_fieldsOf.mp hfield
  have hknown : componentLabel symbol index ∈ p.draft.known s.upTo := by
    rw [Draft.known_upTo, List.mem_append]
    exact Or.inr (List.mem_flatMap.mpr ⟨field, hmem, hclaim⟩)
  exact not_isIdentifier_componentLabel symbol index (p.isIdentifier_of_mem_known_upTo hknown)

/-- In a numeric batch, vectors have numbers in all components. -/
theorem not_isNaNAt_vector (h : p.Solved batch policy stages progress)
    (hbatch : p.draft.NumericOver batch) (hsample : sample < batch.rows) {symbol : String}
    {components : List Column} (hfind : progress.env.find? symbol = some (.vector components))
    {column : Column} (hcolumn : column ∈ components) : ¬column.IsNaNAt sample := by
  obtain ⟨values, rfl, label, hlabel, hvalues⟩ := h.of_find?_vector hfind hcolumn
  have hsize : values.size = batch.rows :=
    batch.hasRows_rows _ (SymbolMap.find?_eq_some_iff.mp hvalues)
  have hlt : sample < values.size := hsize ▸ hsample
  have hget : (Column.samples values).get sample = values[sample] := by simp [Column.get, hlt]
  rw [Column.IsNaNAt, hget]
  exact hbatch label hlabel values hvalues _ (Array.getElem_mem hlt)

/-- What a symbol is bound to is not a number exactly if its cell in the table is none. -/
theorem has_isNaNAt_iff (h : p.Solved batch policy stages progress)
    (hbatch : p.draft.NumericOver batch) (hsample : sample < batch.rows) {symbol : String} :
    progress.env.Has (Column.IsNaNAt sample) symbol ↔
      progress.soFar.table.IsNaNAt symbol sample := by
  constructor
  · rintro ⟨column | components | truth, hfind, hhas⟩
    · exact ⟨_, h.cell?_of_find? hsample hfind, hhas⟩
    · obtain ⟨column, hcolumn, hisNaN⟩ := hhas
      exact absurd hisNaN (h.not_isNaNAt_vector hbatch hsample hfind hcolumn)
    · exact hhas.elim
  · intro hisNaN
    obtain ⟨-, column, hfind, hcolumn⟩ := h.exists_column_of_isNaNAt hbatch hisNaN
    exact ⟨_, hfind, hcolumn⟩

/-! ### Fields -/

/-- A field has a value for every sample. It is not a number exactly if a failure of the field is
reported for the sample or the cell of a mentioned symbol is none. -/
theorem isNaNAt_iff (h : p.Solved batch .perRow stages progress) (hproblem : p.draft.Numeric)
    (hbatch : p.draft.NumericOver batch) {field : Field} (hfield : field ∈ p.draft.fieldsOf stages)
    {e : Expr} (he : field.expr? = some e) (hsample : sample < batch.rows) :
    ∃ value, progress.soFar.table.cell? field.symbol sample = some value ∧
      (value.isNaN ↔
        (∃ f ∈ progress.soFar.failures, f.field = some field.symbol ∧ f.sample = some sample) ∨
          ∃ symbol ∈ e.mentions, progress.soFar.table.IsNaNAt symbol sample) := by
  obtain ⟨column, failures, hsettle, hcontributed⟩ := h.exists_column hfield he
  have hfailures : (∃ f ∈ failures, f.sample = some sample) ↔
      ∃ f ∈ progress.soFar.failures, f.field = some field.symbol ∧ f.sample = some sample := by
    have hfilter : progress.soFar.failures.filter (·.field = some field.symbol) = failures := by
      rw [h.filter_failures hfield, hcontributed]
    have hmem (f : Failure) : f ∈ failures ↔
        f ∈ progress.soFar.failures ∧ f.field = some field.symbol := by
      rw [← hfilter, List.mem_filter, decide_eq_true_eq]
    simp only [hmem, and_assoc]
  obtain ⟨s, -, hmem⟩ := Draft.mem_fieldsOf.mp hfield
  refine ⟨_, h.cell?_of_find? hsample (h.find?_symbol hfield hcontributed), ?_⟩
  have hcolumn := Expr.isNaNAt_of_settle (h.rows ▸ hsample)
    (fun _ _ hvector _ ↦ h.not_isNaNAt_vector hbatch hsample hvector)
    (hproblem.literal s field hmem e he) hsettle
  simp only [hfailures, h.has_isNaNAt_iff hbatch hsample] at hcolumn
  exact hcolumn

/-- A failure is one of a field with an expression, for a sample for which the field is not a
number. -/
theorem of_mem_failures (h : p.Solved batch .perRow stages progress) (hproblem : p.draft.Numeric)
    (hbatch : p.draft.NumericOver batch) {f : Failure} (hf : f ∈ progress.soFar.failures) :
    ∃ field ∈ p.draft.fieldsOf stages, f.field = some field.symbol ∧
      ∃ sample, f.sample = some sample ∧
        progress.soFar.table.IsNaNAt field.symbol sample := by
  have hcontributed := hf
  rw [h.failures] at hcontributed
  obtain ⟨field, hfield, hmem⟩ := List.mem_flatMap.mp hcontributed
  rcases h.contributed_cases hfield with ⟨e, column, failures, he, hsettle, heq⟩ | ⟨c, -, heq⟩
  · obtain ⟨-, rfl⟩ := Policy.settle_perRow_eq_ok hsettle
    rw [heq] at hmem
    obtain ⟨hname, sample, hsample, hplace⟩ :=
      e.attemptColumn_places _ f (mem_of_mem_firstPerSample hmem)
    obtain ⟨value, hcell, hvalue⟩ :=
      h.isNaNAt_iff hproblem hbatch hfield he (h.rows ▸ hsample)
    exact ⟨field, hfield, hname, sample, hplace, value, hcell,
      hvalue.mpr (.inl ⟨f, hf, hname, hplace⟩)⟩
  · rw [heq] at hmem
    exact absurd hmem List.not_mem_nil

/-- A field has at most one failure for a sample. -/
theorem nodup_failures (h : p.Solved batch .perRow stages progress) :
    (progress.soFar.failures.map fun f ↦ (f.field, f.sample)).Nodup := by
  rw [h.failures, List.map_flatMap, List.nodup_flatMap]
  constructor
  · intro field hfield
    rcases h.contributed_cases hfield with ⟨e, column, failures, -, hsettle, heq⟩ | ⟨c, -, heq⟩
    · obtain ⟨-, rfl⟩ := Policy.settle_perRow_eq_ok hsettle
      rw [heq]
      refine List.Nodup.of_map Prod.snd ?_
      rw [List.map_map]
      exact nodup_firstPerSample [] _
    · rw [heq]
      exact List.nodup_nil
  · have hsymbols := List.pairwise_map.mp h.nodup_symbols
    refine hsymbols.imp_of_mem fun {field other} hfield hother hne ↦ ?_
    -- Failures of different fields name different fields.
    intro place hplace hplace'
    obtain ⟨f, hf, rfl⟩ := List.mem_map.mp hplace
    obtain ⟨g, hg, heq⟩ := List.mem_map.mp hplace'
    have hname : f.field = some field.symbol := h.named_of_mem_failures hfield hf
    have hname' : g.field = some other.symbol := h.named_of_mem_failures hother hg
    have hsame : g.field = f.field := congrArg Prod.fst heq
    exact hne (Option.some.inj (hname.symm.trans (hsame.symm.trans hname')))

/-! ### Origins -/

/-- If a cell of a field is not a number, the field has an expression, its own cell is not a number,
and the other cell is computed from it if it is another. -/
theorem isNaNAt_of_mem_claims (h : p.Solved batch policy stages progress)
    (hproblem : p.draft.Numeric) (hbatch : p.draft.NumericOver batch) {s : Stage} (hs : s ∈ stages)
    {field : Field} (hfield : field ∈ p.draft.stageFields s) (hlabel : label ∈ field.claims)
    (hisNaN : progress.soFar.table.IsNaNAt label sample) :
    (∃ e, field.expr? = some e) ∧ progress.soFar.table.IsNaNAt field.symbol sample ∧
      (label = field.symbol ∨ p.draft.Reads label field.symbol) := by
  have hmem : field ∈ p.draft.fieldsOf stages := Draft.mem_fieldsOf.mpr ⟨s, hs, hfield⟩
  have hsample := h.lt_rows_of_isNaNAt hisNaN
  obtain ⟨-, bound, hbound, hcolumn⟩ := h.exists_column_of_isNaNAt hbatch hisNaN
  rcases h.contributed_cases hmem with ⟨e, column, failures, he, -, hcontributed⟩ | ⟨c, rfl, -⟩
  · refine ⟨⟨e, he⟩, ?_⟩
    rcases eq_or_ne label field.symbol with rfl | hother
    · exact ⟨hisNaN, .inl rfl⟩
    · -- Only an objective claims another symbol, the alias.
      cases field with
      | objective f =>
        obtain rfl : label = minAlias f.symbol :=
          List.mem_singleton.mp ((List.mem_cons.mp hlabel).resolve_left hother)
        cases hbound.symm.trans (h.find?_minAlias hmem hcontributed)
        have hown := h.cell?_of_find? hsample (h.find?_symbol hmem hcontributed)
        exact ⟨⟨_, hown, (Column.isNaNAt_map f.isNaN_orient).mp hcolumn⟩,
          .inr (.oriented (Draft.mem_objectives hfield))⟩
      | _ => exact absurd (List.mem_singleton.mp hlabel) hother
  · obtain rfl : label = c.symbol := List.mem_singleton.mp hlabel
    have hbinding : c.value.binding = .scalar bound :=
      Option.some.inj ((h.find?_constant hmem).symm.trans hbound)
    cases hvalue : c.value with
    | number value =>
      rw [hvalue] at hbinding
      cases hbinding
      exact absurd hcolumn (hproblem.constant c (Draft.mem_constants hfield) value hvalue)
    | bool value =>
      rw [hvalue] at hbinding
      cases hbinding

/-- A cell of a field that is not a number has an origin for which a failure is reported. -/
theorem exists_origin (h : p.Solved batch .perRow stages progress) (hproblem : p.draft.Numeric)
    (hbatch : p.draft.NumericOver batch) (s : Stage) (hstages : s.upTo ⊆ stages) :
    ∀ label ∈ p.draft.known s.upTo, progress.soFar.table.IsNaNAt label sample →
      ∃ origin, p.draft.TracesTo progress.soFar.table sample label origin ∧
        ∃ f ∈ progress.soFar.failures, f.field = some origin ∧ f.sample = some sample := by
  refine Stage.upTo_induction (motive := fun earlier ↦ earlier ⊆ stages →
    ∀ label ∈ p.draft.known earlier, progress.soFar.table.IsNaNAt label sample →
      ∃ origin, p.draft.TracesTo progress.soFar.table sample label origin ∧
        ∃ f ∈ progress.soFar.failures, f.field = some origin ∧ f.sample = some sample)
    ?_ ?_ s hstages
  · -- The cells of decision variables are numbers.
    intro _ label hlabel hisNaN
    obtain ⟨⟨field, hfield, hclaim⟩, -⟩ := h.exists_column_of_isNaNAt hbatch hisNaN
    obtain ⟨r, hr, hmem⟩ := Draft.mem_fieldsOf.mp hfield
    have hknown : (p.draft.known stages).Nodup := h.bound ▸ progress.env.bindings.nodup
    have hclaimed : label ∈ stages.flatMap p.draft.stageClaims :=
      List.mem_flatMap.mpr ⟨r, hr, List.mem_flatMap.mpr ⟨field, hmem, hclaim⟩⟩
    simp only [Draft.known, List.flatMap_nil, List.append_nil] at hlabel
    exact absurd rfl ((List.nodup_append.mp hknown).2.2 label hlabel label hclaimed)
  · intro r ih hsub label hlabel hisNaN
    have hr : r ∈ stages := hsub r.self_mem_upTo
    have hbefore := ih (List.Subset.trans r.before_subset_upTo hsub)
    rw [Draft.known_upTo, List.mem_append] at hlabel
    rcases hlabel with hlabel | hlabel
    · exact hbefore label hlabel hisNaN
    · obtain ⟨field, hfield, hclaim⟩ := List.mem_flatMap.mp hlabel
      obtain ⟨⟨e, he⟩, hown, hreads⟩ :=
        h.isNaNAt_of_mem_claims hproblem hbatch hr hfield hclaim hisNaN
      have hmem : field ∈ p.draft.fieldsOf stages := Draft.mem_fieldsOf.mpr ⟨r, hr, hfield⟩
      have hstart : p.draft.TracesTo progress.soFar.table sample label field.symbol := by
        rcases hreads with rfl | hreads
        · exact Relation.ReflTransGen.refl
        · exact Relation.ReflTransGen.single ⟨hreads, hown⟩
      obtain ⟨value, hcell, hvalue⟩ :=
        h.isNaNAt_iff hproblem hbatch hmem he (h.lt_rows_of_isNaNAt hisNaN)
      rcases hvalue.mp ((Table.isNaNAt_iff_of_cell? hcell).mp hown) with hfailure | hmentioned
      · exact ⟨field.symbol, hstart, hfailure⟩
      · -- What the expression mentions is known before the stage.
        obtain ⟨symbol, hsymbol, hsource⟩ := hmentioned
        obtain ⟨origin, htrace, hfailure⟩ :=
          hbefore symbol (p.mem_scope_of_mem_mentions hfield he hsymbol) hsource
        have hstep : p.draft.TracesTo progress.soFar.table sample field.symbol symbol :=
          Relation.ReflTransGen.single ⟨.mention hfield he hsymbol, hsource⟩
        exact ⟨origin, (hstart.trans hstep).trans htrace, hfailure⟩

end Solved

/-! ### Reports -/

/-- Let a problem have no constant and no literal that is not a number, and let a batch have numbers
for its variables. Where failures are confined to their samples, every field has a cell for every
sample. The cell is not a number exactly if a failure of the field is reported for the sample or a
mentioned symbol is not a number there. A field has one report at most for a sample. Every cell that
is not a number traces to a field with a report for the same sample, and every report is of a cell
that is not a number. -/
theorem isNaN_iff_reported (p : Problem) (batch : Table) (last : Stage) {result : Evaluation}
    (hproblem : p.draft.Numeric) (hbatch : p.draft.NumericOver batch)
    (h : p.evaluate batch ⟨.perRow, last⟩ = .ok result) :
    (∀ s ∈ last.upTo, ∀ field ∈ p.draft.stageFields s, ∀ e, field.expr? = some e →
      ∀ sample < batch.rows, ∃ value, result.table.cell? field.symbol sample = some value ∧
        (value.isNaN ↔
          (∃ f ∈ result.failures, f.field = some field.symbol ∧ f.sample = some sample) ∨
            ∃ symbol ∈ e.mentions, result.table.IsNaNAt symbol sample ∨
              ∃ index, result.table.IsNaNAt (componentLabel symbol index) sample)) ∧
    (result.failures.map fun f ↦ (f.field, f.sample)).Nodup ∧
    (∀ label sample, result.table.IsNaNAt label sample →
      ∃ origin, p.draft.TracesTo result.table sample label origin ∧
        ∃ f ∈ result.failures, f.field = some origin ∧ f.sample = some sample) ∧
    ∀ f ∈ result.failures, ∃ s ∈ last.upTo, ∃ field ∈ p.draft.stageFields s,
      f.field = some field.symbol ∧
        ∃ sample, f.sample = some sample ∧ result.table.IsNaNAt field.symbol sample := by
  obtain ⟨progress, rfl, hsolved, -⟩ := exists_solved h
  refine ⟨fun s hs field hfield e he sample hsample ↦ ?_, hsolved.nodup_failures,
    fun label sample hisNaN ↦ ?_, fun f hf ↦ ?_⟩
  · have hmem : field ∈ p.draft.fieldsOf last.upTo := Draft.mem_fieldsOf.mpr ⟨s, hs, hfield⟩
    simp only [hsolved.not_isNaNAt_component hbatch, exists_false, or_false]
    exact hsolved.isNaNAt_iff hproblem hbatch hmem he hsample
  · obtain ⟨⟨field, hfield, hclaim⟩, -⟩ := hsolved.exists_column_of_isNaNAt hbatch hisNaN
    obtain ⟨s, hs, hmem⟩ := Draft.mem_fieldsOf.mp hfield
    refine hsolved.exists_origin hproblem hbatch last (List.Subset.refl _) label ?_ hisNaN
    exact List.mem_append_right _
      (List.mem_flatMap.mpr ⟨s, hs, List.mem_flatMap.mpr ⟨field, hmem, hclaim⟩⟩)
  · obtain ⟨field, hfield, hname, hplace⟩ := hsolved.of_mem_failures hproblem hbatch hf
    obtain ⟨s, hs, hmem⟩ := Draft.mem_fieldsOf.mp hfield
    exact ⟨s, hs, field, hmem, hname, hplace⟩

end Problem

/-- One over zero is the origin of what is not a number in the second sample, also under the
alias. -/
theorem quotientProblem_isNaN_iff_reported :
    ∃ result, quotientProblem.evaluate quotientBatch ⟨.perRow, .scalarizations⟩ = .ok result ∧
      result.table.IsNaNAt "f_min" 1 ∧
      ∃ origin, quotientDraft.TracesTo result.table 1 "f_min" origin ∧
        ∃ f ∈ result.failures, f.field = some origin ∧ f.sample = some 1 := by
  have hproblem : quotientDraft.Numeric := by
    refine ⟨fun c hc ↦ absurd hc List.not_mem_nil, fun s field hfield e he value hvalue ↦ ?_⟩
    cases s with
    | objectives =>
      cases List.mem_singleton.mp hfield
      cases he
      have hone : value = 1 := by
        simpa [Expr.divide, Expr.number, Expr.nodes, Expr.nodesList] using hvalue
      rw [hone]
      decide +kernel
    | _ => exact absurd hfield List.not_mem_nil
  have hbatch : quotientDraft.NumericOver quotientBatch := by
    intro label hlabel values hvalues value hvalue
    cases List.mem_singleton.mp hlabel
    cases hvalues
    have hcell : value = 2 ∨ value = 0 := by simpa using hvalue
    rcases hcell with rfl | rfl <;> decide +kernel
  have hok : ((quotientProblem.evaluate quotientBatch ⟨.perRow, .scalarizations⟩).toOption.bind
      fun result ↦ result.table.cell? "f_min" 1).map Float.isNaN = some true := by
    decide +kernel
  rcases hresult : quotientProblem.evaluate quotientBatch ⟨.perRow, .scalarizations⟩ with
    error | result
  · rw [hresult] at hok
    cases hok
  · rw [hresult] at hok
    obtain ⟨value, hcell, hvalue⟩ := Option.map_eq_some_iff.mp hok
    have hisNaN : result.table.IsNaNAt "f_min" 1 := ⟨value, hcell, hvalue⟩
    obtain ⟨-, -, htraces, -⟩ :=
      quotientProblem.isNaN_iff_reported quotientBatch .scalarizations hproblem hbatch hresult
    exact ⟨result, rfl, hisNaN, htraces "f_min" 1 hisNaN⟩

end Tradeoff
