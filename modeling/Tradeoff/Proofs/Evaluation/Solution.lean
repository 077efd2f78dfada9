import Tradeoff.Proofs.Evaluation.Locality
import Tradeoff.Proofs.Evaluation.Scope

/-!
# Runs as solutions

A problem defines its fields by equations: every field has the value of its expression, where the
symbols in it stand for the decision variables and other fields. A run through the stages solves
these equations one stage after another. What it ends in is told here all at once, without stages
(`Problem.Solved`): evaluated in the environment of the end, the fields contribute the bindings that
the environment has after those of the variables, the columns that the table has after those of the
batch, and the failures.

That fields of early stages may be evaluated in the environment of the end is because bindings stay
as they are. A stage keeps the equations (`Problem.Solved.runStage`), and so does a run
(`Problem.Solved.upTo`).
-/

namespace Tradeoff

/-! ### Decision variables -/

namespace Variable

/-- What a variable is bound to over a batch, and its columns; nothing is said of a variable that
the batch lacks. -/
def given (v : Variable) (batch : Table) : Binding × List (String × Array Float) :=
  match v.input batch with
  | .ok input => input
  | .error _ => (.flag false, [])

variable {v : Variable} {batch : Table}

/-- A variable that is read is given by what is read. -/
theorem given_of_input {input : Binding × List (String × Array Float)}
    (h : v.input batch = .ok input) : v.given batch = input := by
  rw [given, h]

/-- A scalar variable is bound to its column in the batch. -/
theorem given_of_scalar (hshape : v.shape = .scalar) (h : v.input batch = .ok (v.given batch)) :
    ∃ values, batch.find? v.symbol = some values ∧
      v.given batch = (.scalar (.samples values), [(v.symbol, values)]) := by
  simp only [input, hshape] at h
  split at h
  · cases h
  · next values hfind => exact ⟨values, hfind, (Except.ok.inj h).symm⟩

/-- A vector variable is bound to the columns that its components have in the batch. -/
theorem given_of_vector {length : Nat} (hshape : v.shape = .vector length)
    (h : v.input batch = .ok (v.given batch)) :
    ∃ columns, columns.map Prod.fst = componentLabels v.symbol 1 length ∧
      (∀ column ∈ columns, batch.find? column.1 = some column.2) ∧
      v.given batch = (.vector (columns.map fun column ↦ .samples column.2), columns) := by
  simp only [input, hshape] at h
  split at h
  · cases h
  · next columns hcolumns =>
    obtain ⟨hlabels, hmem⟩ := Table.of_componentColumns_eq_ok hcolumns
    refine ⟨columns, hlabels, fun column hcolumn ↦ ?_, (Except.ok.inj h).symm⟩
    exact SymbolMap.find?_eq_some_iff.mpr (hmem column hcolumn)

end Variable

/-- Variables that are all bound are bound in their order, and so are their columns in the table. -/
theorem of_bindVariables_eq_ok {batch : Table} {decisions : List Variable} {env env' : Environment}
    {table table' : Table} (h : bindVariables batch env table decisions = .ok (env', table'))
    (hsymbols : (env.symbols ++ decisions.map (·.symbol)).Nodup) :
    (∀ v ∈ decisions, v.input batch = .ok (v.given batch)) ∧
      env'.bindings.entries =
        env.bindings.entries ++ decisions.map (fun v ↦ (v.symbol, (v.given batch).1)) ∧
      table'.columns.entries =
        table.columns.entries ++ decisions.flatMap fun v ↦ (v.given batch).2 := by
  induction decisions generalizing env table with
  | nil =>
    cases h
    simp
  | cons v decisions ih =>
    have hsymbol : v.symbol ∉ env.symbols := fun hmem ↦
      (List.nodup_append.mp hsymbols).2.2 v.symbol hmem v.symbol List.mem_cons_self rfl
    unfold bindVariables at h
    split at h
    · cases h
    · next binding columns hinput =>
      split at h
      · cases h
      · next next hinsert =>
        have hgiven := Variable.given_of_input hinput
        obtain ⟨hinputs, hentries, htable⟩ :=
          ih h (by rw [Environment.symbols_bind hsymbol]; simpa using hsymbols)
        refine ⟨fun w hw ↦ ?_, ?_, ?_⟩
        · rcases List.mem_cons.mp hw with rfl | hw
          · rw [hgiven, hinput]
          · exact hinputs w hw
        · rw [hentries, Environment.entries_bind hsymbol, List.map_cons, hgiven, List.append_assoc,
            List.singleton_append]
        · rw [htable, Table.entries_of_insertAll hinsert, List.flatMap_cons, hgiven,
            List.append_assoc]

/-! ### Fields -/

namespace Field

/-- What a field contributes to an evaluation; nothing if it cannot be evaluated. -/
def contributed (env : Environment) (policy : Policy) (field : Field) : Contribution :=
  match field.contribute env policy with
  | .ok contribution => contribution
  | .error _ => ⟨[], []⟩

/-- A field that contributes has its contribution. -/
theorem contributed_of_contribute {env : Environment} {policy : Policy} {field : Field}
    {c : Contribution} (h : field.contribute env policy = .ok c) :
    field.contributed env policy = c := by
  rw [contributed, h]

/-- The failures of a field name it. -/
theorem named_of_contribute {env : Environment} {policy : Policy} {field : Field}
    {c : Contribution} (h : field.contribute env policy = .ok c) {f : Failure}
    (hf : f ∈ c.failures) : f.field = some field.symbol := by
  rcases field.expr?_cases with ⟨e, he⟩ | ⟨constant, rfl⟩ | ⟨hexpr, hno⟩
  · rw [contribute_of_expr? he] at h
    obtain ⟨⟨column, failures⟩, hsettle, rfl⟩ := map_eq_ok_iff.mp h
    obtain ⟨failures', -, rfl⟩ := Expr.evaluate_of_field hsettle
    obtain ⟨f', -, rfl⟩ := List.mem_map.mp hf
    rfl
  · cases h
    exact absurd hf List.not_mem_nil
  · rw [contribute_of_no_expr? hexpr hno] at h
    cases h

end Field

/-- Fields contribute if each of them does. -/
theorem contributions_eq_ok_iff {env : Environment} {policy : Policy} {fields : List Field}
    {cs : List Contribution} :
    contributions env policy fields = .ok cs ↔
      (∀ field ∈ fields, field.contribute env policy = .ok (field.contributed env policy)) ∧
        cs = fields.map (·.contributed env policy) := by
  induction fields generalizing cs with
  | nil => simp [contributions, eq_comm]
  | cons field fields ih =>
    rw [contributions_cons_eq_ok_iff]
    constructor
    · rintro ⟨c, rest, hfield, hfields, rfl⟩
      have hc := Field.contributed_of_contribute hfield
      obtain ⟨hall, rfl⟩ := ih.mp hfields
      refine ⟨fun next hnext ↦ ?_, by rw [List.map_cons, hc]⟩
      rcases List.mem_cons.mp hnext with rfl | hnext
      · rw [hc, hfield]
      · exact hall next hnext
    · rintro ⟨hall, rfl⟩
      exact ⟨_, _, hall field List.mem_cons_self,
        ih.mpr ⟨fun next hnext ↦ hall next (List.mem_cons_of_mem _ hnext), rfl⟩, rfl⟩

/-- Columns are written binding by binding. -/
theorem bindingColumns_append (rows : Nat) (bindings more : List (String × Binding)) :
    bindingColumns rows (bindings ++ more) =
      bindingColumns rows bindings ++ bindingColumns rows more :=
  List.filterMap_append

/-! ### Solutions -/

/-- All fields of some stages. -/
def Draft.fieldsOf (d : Draft) (stages : List Stage) : List Field := stages.flatMap d.stageFields

theorem Draft.fieldsOf_upTo (d : Draft) (s : Stage) :
    d.fieldsOf s.upTo = d.fieldsOf s.before ++ d.stageFields s := by
  simp [fieldsOf, Stage.upTo]

theorem Draft.mem_fieldsOf {d : Draft} {stages : List Stage} {field : Field} :
    field ∈ d.fieldsOf stages ↔ ∃ s ∈ stages, field ∈ d.stageFields s := List.mem_flatMap

/-- Of the failures of fields with different symbols, those that name a field are the failures of
the field. -/
theorem filter_flatMap_failures {fields : List Field} {failures : Field → List Failure}
    (hnodup : (fields.map Field.symbol).Nodup)
    (hnamed : ∀ field ∈ fields, ∀ f ∈ failures field, f.field = some field.symbol) {field : Field}
    (hfield : field ∈ fields) :
    (fields.flatMap failures).filter (·.field = some field.symbol) = failures field := by
  have hown (other : Field) (hother : other ∈ fields) (hsymbol : other.symbol = field.symbol) :
      (failures other).filter (·.field = some field.symbol) = failures other :=
    List.filter_eq_self.mpr fun f hf ↦ by simp [hnamed other hother f hf, hsymbol]
  have hforeign (others : List Field) (hothers : ∀ other ∈ others,
      other ∈ fields ∧ other.symbol ≠ field.symbol) :
      (others.flatMap failures).filter (·.field = some field.symbol) = [] := by
    refine List.filter_eq_nil_iff.mpr fun f hf ↦ ?_
    obtain ⟨other, hother, hmem⟩ := List.mem_flatMap.mp hf
    simp [hnamed other (hothers other hother).1 f hmem, (hothers other hother).2]
  obtain ⟨front, rest, rfl⟩ := List.append_of_mem hfield
  rw [List.map_append, List.map_cons, List.nodup_append, List.nodup_cons] at hnodup
  obtain ⟨-, ⟨hrest, -⟩, hfront⟩ := hnodup
  rw [List.flatMap_append, List.flatMap_cons, List.filter_append, List.filter_append,
    hforeign front fun other hother ↦ ⟨List.mem_append_left _ hother, ?_⟩,
    hforeign rest fun other hother ↦ ⟨by simp [hother], fun hsymbol ↦
      hrest (hsymbol ▸ List.mem_map_of_mem hother)⟩,
    hown field (by simp) rfl, List.nil_append, List.append_nil]
  exact hfront _ (List.mem_map_of_mem hother) _ List.mem_cons_self

namespace Problem

variable {p : Problem} {batch : Table} {policy : Policy}

/-- The state after some stages solves the equations of their fields: what it has beside the
decision variables is what the fields contribute in its own environment. -/
structure Solved (p : Problem) (batch : Table) (policy : Policy) (stages : List Stage)
    (progress : Progress) : Prop extends p.Consistent batch stages progress where
  /-- The batch has the columns of all variables. -/
  inputs : ∀ v ∈ p.draft.decisions, v.input batch = .ok (v.given batch)
  /-- All fields can be evaluated. -/
  contributes : ∀ field ∈ p.draft.fieldsOf stages,
    field.contribute progress.env policy = .ok (field.contributed progress.env policy)
  /-- The environment binds the variables and then what the fields contribute. -/
  bindings : progress.env.bindings.entries =
    p.draft.decisions.map (fun v ↦ (v.symbol, (v.given batch).1)) ++
      (p.draft.fieldsOf stages).flatMap fun field ↦
        (field.contributed progress.env policy).bindings
  /-- The table has the columns of the variables and then those of the fields. -/
  entries : progress.soFar.table.columns.entries =
    p.draft.decisions.flatMap (fun v ↦ (v.given batch).2) ++
      bindingColumns batch.rows ((p.draft.fieldsOf stages).flatMap fun field ↦
        (field.contributed progress.env policy).bindings)
  /-- The failures are those of the fields. -/
  failures : progress.soFar.failures = (p.draft.fieldsOf stages).flatMap fun field ↦
    (field.contributed progress.env policy).failures

/-- Whatever a field mentions is in the scope of its stage, and so in the scope of any later one. -/
theorem mem_scope_of_mem_fieldsOf {s : Stage} {field : Field}
    (hfield : field ∈ p.draft.fieldsOf s.upTo) {e : Expr} (he : field.expr? = some e)
    {symbol : String} (hsymbol : symbol ∈ e.mentions) : symbol ∈ p.draft.scope s := by
  obtain ⟨earlier, hearlier, hmem⟩ := Draft.mem_fieldsOf.mp hfield
  have hscope := p.mem_scope_of_mem_mentions hmem he hsymbol
  rw [Draft.scope, List.mem_append] at hscope ⊢
  refine hscope.imp id fun h ↦ ?_
  -- Whatever is in scope in an earlier stage is still in scope.
  obtain ⟨stage, hstage, hclaim⟩ := List.mem_flatMap.mp h
  exact List.mem_flatMap.mpr ⟨stage, Stage.before_subset_of_mem_upTo hearlier hstage, hclaim⟩

/-- New bindings at the end do not change those that are there. -/
theorem find?_of_entries_append {env env' : Environment} {added : List (String × Binding)}
    (h : env'.bindings.entries = env.bindings.entries ++ added) {symbol : String}
    (hbound : symbol ∈ env.symbols) : env'.find? symbol = env.find? symbol := by
  obtain ⟨binding, hbinding⟩ := Option.ne_none_iff_exists'.mp fun hnone ↦
    Environment.find?_eq_none_iff.mp hnone hbound
  have hmem := SymbolMap.find?_eq_some_iff.mp hbinding
  rw [hbinding]
  refine SymbolMap.find?_eq_some_iff.mpr ?_
  rw [h]
  exact List.mem_append_left _ hmem

/-- A batch has the columns of variables that it gives values. -/
theorem coveredBy_of_inputs {d : Draft}
    (h : ∀ v ∈ d.decisions, v.input batch = .ok (v.given batch)) : d.CoveredBy batch := by
  intro label hlabel
  obtain ⟨v, hv, hmem⟩ := List.mem_flatMap.mp hlabel
  obtain ⟨hlabels, -, hcolumns⟩ := Variable.of_input_eq_ok (h v hv)
  rw [← hlabels] at hmem
  obtain ⟨column, hcolumn, rfl⟩ := List.mem_map.mp hmem
  exact List.mem_map_of_mem (hcolumns column hcolumn)

/-- Before the first stage there is no equation. -/
theorem solved_start {start : Progress} (h : p.start batch = .ok start) (policy : Policy) :
    p.Solved batch policy [] start := by
  have hknown := (List.nodup_append.mp (p.nodup_known_upTo .constants)).1
  have hbind := h
  unfold Problem.start at hbind
  split at hbind
  · cases hbind
  · next env table hvariables =>
    cases hbind
    obtain ⟨hinputs, hentries, htable⟩ := of_bindVariables_eq_ok hvariables hknown
    obtain ⟨start, hstart, hconsistent⟩ := exists_start (coveredBy_of_inputs hinputs)
    cases hstart.symm.trans h
    refine ⟨hconsistent, hinputs, fun _ hmem ↦ absurd hmem List.not_mem_nil, ?_, ?_, rfl⟩
    · simpa [Environment.empty, SymbolMap.empty, Draft.fieldsOf] using hentries
    · simpa [Table.empty, SymbolMap.empty, Draft.fieldsOf, bindingColumns] using htable

/-- What has been solved stays solved if the fields of the next stage are evaluated in the same
environment and what they contribute is added at the end. -/
theorem Solved.extend {s : Stage} {progress next : Progress}
    (h : p.Solved batch policy s.before progress) (hnext : p.Consistent batch s.upTo next)
    (hcontributes : ∀ field ∈ p.draft.stageFields s,
      field.contribute progress.env policy = .ok (field.contributed progress.env policy))
    (hbindings : next.env.bindings.entries = progress.env.bindings.entries ++
      (p.draft.stageFields s).flatMap fun field ↦ (field.contributed progress.env policy).bindings)
    (hentries : next.soFar.table.columns.entries = progress.soFar.table.columns.entries ++
      bindingColumns batch.rows ((p.draft.stageFields s).flatMap fun field ↦
        (field.contributed progress.env policy).bindings))
    (hfailures : next.soFar.failures = progress.soFar.failures ++
      (p.draft.stageFields s).flatMap fun field ↦
        (field.contributed progress.env policy).failures) :
    p.Solved batch policy s.upTo next := by
  -- No symbol that a field mentions gets another binding.
  have hsame (field : Field) (hfield : field ∈ p.draft.fieldsOf s.upTo) :
      field.contribute progress.env policy = field.contribute next.env policy := by
    refine Field.contribute_congr policy (h.rows.trans hnext.rows.symm) fun e he symbol hsymbol ↦ ?_
    refine (find?_of_entries_append hbindings ?_).symm
    rw [h.bound, Draft.known_before]
    exact mem_scope_of_mem_fieldsOf hfield he hsymbol
  have hcontributed (field : Field) (hfield : field ∈ p.draft.fieldsOf s.upTo) :
      field.contributed progress.env policy = field.contributed next.env policy := by
    rw [Field.contributed, Field.contributed, hsame field hfield]
  have hflatMap {β : Type} (f : Contribution → List β) :
      (p.draft.fieldsOf s.before).flatMap (fun field ↦ f (field.contributed progress.env policy)) ++
          (p.draft.stageFields s).flatMap (fun field ↦ f (field.contributed progress.env policy)) =
        (p.draft.fieldsOf s.upTo).flatMap fun field ↦ f (field.contributed next.env policy) := by
    rw [← List.flatMap_append, ← Draft.fieldsOf_upTo]
    rw [List.flatMap_def, List.flatMap_def,
      List.map_congr_left fun field hfield ↦ congrArg f (hcontributed field hfield)]
  refine ⟨hnext, h.inputs, ?_, ?_, ?_, ?_⟩
  · intro field hfield
    rw [← hsame field hfield, ← hcontributed field hfield]
    rw [Draft.fieldsOf_upTo, List.mem_append] at hfield
    exact hfield.elim (h.contributes field) (hcontributes field)
  · rw [hbindings, h.bindings, List.append_assoc, hflatMap]
  · rw [hentries, h.entries, List.append_assoc, ← bindingColumns_append, hflatMap]
  · rw [hfailures, h.failures, hflatMap]

/-- A stage adds the equations of its fields and solves them. No binding is lost. -/
theorem Solved.runStage {s : Stage} {progress next : Progress}
    (h : p.Solved batch policy s.before progress)
    (hnext : (p.runStage policy progress s).result = .ok next) :
    p.Solved batch policy s.upTo next ∧
      progress.env.bindings.entries <+: next.env.bindings.entries := by
  obtain ⟨cs, hcs, hadvance⟩ := runStage_eq_ok_iff.mp hnext
  obtain ⟨table, hcompleted, hconsistent, hbindings, htable⟩ := h.exists_completed hcs
  cases hcompleted.symm.trans hadvance
  obtain ⟨hcontributes, rfl⟩ := contributions_eq_ok_iff.mp hcs
  refine ⟨h.extend hconsistent hcontributes ?_ ?_ ?_, _, hbindings.symm⟩
  · rw [hbindings, List.flatMap_map]
  · rw [table_completed, htable, List.flatMap_map]
  · rw [← List.flatMap_map]
    simp [completed, Evaluation.failures, Evaluation.recordAll]

/-! ### Runs -/

/-- Whatever a run comes to from the start is solved, and so is every state on the way. -/
theorem Solved.upTo {start : Progress} (h : p.Solved batch policy [] start) (s : Stage)
    (last : Progress) (hrun : (p.runStages policy start s.upTo).result = .ok last) :
    p.Solved batch policy s.upTo last ∧ ∀ r ∈ s.upTo, ∃ progress,
      p.Solved batch policy r.before progress ∧
        progress.env.bindings.entries <+: last.env.bindings.entries := by
  refine Stage.upTo_induction (motive := fun stages ↦ ∀ last,
    (p.runStages policy start stages).result = .ok last →
      p.Solved batch policy stages last ∧ ∀ r ∈ stages, ∃ progress,
        p.Solved batch policy r.before progress ∧
          progress.env.bindings.entries <+: last.env.bindings.entries) ?_ ?_ s last hrun
  · intro last hrun
    cases hrun
    exact ⟨h, fun _ hmem ↦ absurd hmem List.not_mem_nil⟩
  · intro t ih last hrun
    obtain ⟨reached, hbefore, hstage⟩ := runStages_upTo_eq_ok_iff.mp hrun
    obtain ⟨hreached, hearlier⟩ := ih reached hbefore
    obtain ⟨hlast, hkept⟩ := hreached.runStage hstage
    refine ⟨hlast, fun r hr ↦ ?_⟩
    rcases List.mem_append.mp hr with hr | hr
    · obtain ⟨progress, hprogress, hbound⟩ := hearlier r hr
      exact ⟨progress, hprogress, hbound.trans hkept⟩
    · rw [List.mem_singleton.mp hr]
      exact ⟨reached, hreached, hkept⟩

/-- A result is the end of a run that has solved all its equations, stage by stage. -/
theorem exists_solved {plan : Plan} {result : Evaluation} (h : p.evaluate batch plan = .ok result) :
    ∃ last, last.soFar = result ∧ p.Solved batch plan.policy plan.last.upTo last ∧
      ∀ s ∈ plan.last.upTo, ∃ progress, p.Solved batch plan.policy s.before progress ∧
        progress.env.bindings.entries <+: last.env.bindings.entries := by
  obtain ⟨start, last, hstart, hlast, rfl⟩ := evaluate_eq_ok_iff.mp h
  exact ⟨last, rfl, (solved_start hstart plan.policy).upTo plan.last last hlast⟩

/-! ### What is bound -/

namespace Solved

variable {stages : List Stage} {progress : Progress}

/-- What is bound is bound to a variable or contributed by a field. -/
theorem of_find? (h : p.Solved batch policy stages progress) {symbol : String} {binding : Binding}
    (hfind : progress.env.find? symbol = some binding) :
    (∃ v ∈ p.draft.decisions, symbol = v.symbol ∧ binding = (v.given batch).1) ∨
      ∃ field ∈ p.draft.fieldsOf stages,
        (symbol, binding) ∈ (field.contributed progress.env policy).bindings := by
  have hmem := SymbolMap.find?_eq_some_iff.mp hfind
  rw [h.bindings, List.mem_append] at hmem
  rcases hmem with hmem | hmem
  · obtain ⟨v, hv, heq⟩ := List.mem_map.mp hmem
    cases heq
    exact Or.inl ⟨v, hv, rfl, rfl⟩
  · exact Or.inr (List.mem_flatMap.mp hmem)

/-- A variable keeps its binding to the end. -/
theorem find?_variable (h : p.Solved batch policy stages progress) {v : Variable}
    (hv : v ∈ p.draft.decisions) : progress.env.find? v.symbol = some (v.given batch).1 := by
  refine SymbolMap.find?_eq_some_iff.mpr ?_
  rw [h.bindings, List.mem_append]
  exact Or.inl (List.mem_map.mpr ⟨v, hv, rfl⟩)

/-- What a field binds is bound to the end. -/
theorem find?_contributed (h : p.Solved batch policy stages progress) {field : Field}
    (hfield : field ∈ p.draft.fieldsOf stages) {symbol : String} {binding : Binding}
    (hmem : (symbol, binding) ∈ (field.contributed progress.env policy).bindings) :
    progress.env.find? symbol = some binding := by
  refine SymbolMap.find?_eq_some_iff.mpr ?_
  rw [h.bindings, List.mem_append]
  exact Or.inr (List.mem_flatMap.mpr ⟨field, hfield, hmem⟩)

/-- What a field contributes has a column. -/
theorem hasColumn_of_mem (h : p.Solved batch policy stages progress) {field : Field}
    (hfield : field ∈ p.draft.fieldsOf stages) {symbol : String} {binding : Binding}
    (hmem : (symbol, binding) ∈ (field.contributed progress.env policy).bindings) :
    binding.HasColumn batch.rows := by
  rw [← h.rows]
  exact (Field.of_contribute_eq_ok (h.contributes field hfield)).2 _ hmem

/-- The components of a bound vector are columns of the batch. -/
theorem of_find?_vector (h : p.Solved batch policy stages progress) {symbol : String}
    {components : List Column} (hfind : progress.env.find? symbol = some (.vector components))
    {column : Column} (hcolumn : column ∈ components) :
    ∃ values, column = .samples values ∧
      ∃ label ∈ p.draft.inputLabels, batch.find? label = some values := by
  rcases h.of_find? hfind with ⟨v, hv, -, hgiven⟩ | ⟨field, hfield, hmem⟩
  · have hinput := h.inputs v hv
    cases hshape : v.shape with
    | scalar =>
      obtain ⟨values, -, heq⟩ := Variable.given_of_scalar hshape hinput
      rw [heq] at hgiven
      cases hgiven
    | vector length =>
      obtain ⟨columns, hlabels, hfound, heq⟩ := Variable.given_of_vector hshape hinput
      rw [heq] at hgiven
      cases hgiven
      obtain ⟨entry, hentry, rfl⟩ := List.mem_map.mp hcolumn
      refine ⟨entry.2, rfl, entry.1, List.mem_flatMap.mpr ⟨v, hv, ?_⟩, hfound entry hentry⟩
      simp only [Variable.columnLabels, hshape]
      rw [← hlabels]
      exact List.mem_map_of_mem hentry
  · obtain ⟨-, values, hvalues, -⟩ := h.hasColumn_of_mem hfield hmem
    cases hvalues

/-- What is bound to a single column has it in the table. -/
theorem find?_table (h : p.Solved batch policy stages progress) {symbol : String}
    {binding : Binding} (hfind : progress.env.find? symbol = some binding) {values : Array Float}
    (hvalues : binding.column? batch.rows = some values) :
    progress.soFar.table.find? symbol = some values := by
  refine SymbolMap.find?_eq_some_iff.mpr ?_
  rw [h.entries, List.mem_append]
  rcases h.of_find? hfind with ⟨v, hv, rfl, rfl⟩ | ⟨field, hfield, hmem⟩
  · refine Or.inl (List.mem_flatMap.mpr ⟨v, hv, ?_⟩)
    have hinput := h.inputs v hv
    cases hshape : v.shape with
    | scalar =>
      obtain ⟨column, -, heq⟩ := Variable.given_of_scalar hshape hinput
      rw [heq] at hvalues ⊢
      cases hvalues
      exact List.mem_singleton_self _
    | vector length =>
      obtain ⟨columns, -, -, heq⟩ := Variable.given_of_vector hshape hinput
      rw [heq] at hvalues
      cases hvalues
  · refine Or.inr (List.mem_filterMap.mpr ⟨(symbol, binding), ?_, by simp [hvalues]⟩)
    exact List.mem_flatMap.mpr ⟨field, hfield, hmem⟩

/-- A field with an expression contributes the column of the expression. -/
theorem exists_column (h : p.Solved batch policy stages progress) {field : Field}
    (hfield : field ∈ p.draft.fieldsOf stages) {e : Expr} (he : field.expr? = some e) :
    ∃ column failures,
      policy.settle (e.attemptColumn ⟨progress.env, some field.symbol⟩) = .ok (column, failures) ∧
        field.contributed progress.env policy = ⟨field.bindings column, failures⟩ := by
  have hcontribute := h.contributes field hfield
  rw [Field.contribute_of_expr? he] at hcontribute
  obtain ⟨⟨column, failures⟩, hsettle, heq⟩ := map_eq_ok_iff.mp hcontribute
  exact ⟨column, failures, hsettle, heq.symm⟩

/-- Every field contributes the column of its expression, or it is a constant and contributes its
value. -/
theorem contributed_cases (h : p.Solved batch policy stages progress) {field : Field}
    (hfield : field ∈ p.draft.fieldsOf stages) :
    (∃ e column failures, field.expr? = some e ∧
      policy.settle (e.attemptColumn ⟨progress.env, some field.symbol⟩) = .ok (column, failures) ∧
        field.contributed progress.env policy = ⟨field.bindings column, failures⟩) ∨
      ∃ c, field = .constant c ∧
        field.contributed progress.env policy = ⟨[(c.symbol, c.value.binding)], []⟩ := by
  rcases field.expr?_cases with ⟨e, he⟩ | ⟨c, rfl⟩ | ⟨hexpr, hno⟩
  · obtain ⟨column, failures, hcolumn⟩ := h.exists_column hfield he
    exact .inl ⟨e, column, failures, he, hcolumn⟩
  · exact .inr ⟨c, rfl, Field.contributed_of_contribute (Field.contribute_constant _ _ c)⟩
  · have hcontribute := h.contributes field hfield
    rw [Field.contribute_of_no_expr? hexpr hno] at hcontribute
    cases hcontribute

/-- A field with an expression is bound to the column of the expression. -/
theorem find?_symbol (h : p.Solved batch policy stages progress) {field : Field}
    (hfield : field ∈ p.draft.fieldsOf stages) {column : Column} {failures : List Failure}
    (hcontributed : field.contributed progress.env policy = ⟨field.bindings column, failures⟩) :
    progress.env.find? field.symbol = some (.scalar column) := by
  refine h.find?_contributed hfield ?_
  rw [hcontributed]
  cases field <;> exact List.mem_cons_self

/-- The alias of an objective is bound to the oriented column of the objective. -/
theorem find?_minAlias (h : p.Solved batch policy stages progress) {f : Objective}
    (hfield : .objective f ∈ p.draft.fieldsOf stages) {column : Column} {failures : List Failure}
    (hcontributed : (Field.objective f).contributed progress.env policy =
      ⟨(Field.objective f).bindings column, failures⟩) :
    progress.env.find? (minAlias f.symbol) = some (.scalar (column.map f.orient)) := by
  refine h.find?_contributed hfield ?_
  rw [hcontributed]
  exact List.mem_cons_of_mem _ (List.mem_singleton_self _)

/-- A constant is bound to its value. -/
theorem find?_constant (h : p.Solved batch policy stages progress) {c : Constant}
    (hfield : .constant c ∈ p.draft.fieldsOf stages) :
    progress.env.find? c.symbol = some c.value.binding := by
  refine h.find?_contributed hfield ?_
  rw [Field.contributed_of_contribute (Field.contribute_constant _ _ c)]
  exact List.mem_singleton_self _

/-- Fields of different stages have different symbols, as all fields have. -/
theorem nodup_symbols (h : p.Solved batch policy stages progress) :
    ((p.draft.fieldsOf stages).map Field.symbol).Nodup := by
  have hknown : (p.draft.known stages).Nodup := h.bound ▸ progress.env.bindings.nodup
  have hclaims : (p.draft.fieldsOf stages).flatMap Field.claims =
      stages.flatMap p.draft.stageClaims := List.flatMap_assoc
  have hsublist (fields : List Field) :
      (fields.map Field.symbol).Sublist (fields.flatMap Field.claims) := by
    induction fields with
    | nil => exact List.Sublist.slnil
    | cons field fields ih =>
      exact (List.singleton_sublist.mpr field.symbol_mem_claims).append ih
  exact (hclaims ▸ (List.nodup_append.mp hknown).2.1).sublist (hsublist _)

/-- The failures of a field name the field. -/
theorem named_of_mem_failures (h : p.Solved batch policy stages progress) {field : Field}
    (hfield : field ∈ p.draft.fieldsOf stages) {f : Failure}
    (hf : f ∈ (field.contributed progress.env policy).failures) : f.field = some field.symbol :=
  Field.named_of_contribute (h.contributes field hfield) hf

/-- The failures that name a field are those that it contributes. -/
theorem filter_failures (h : p.Solved batch policy stages progress) {field : Field}
    (hfield : field ∈ p.draft.fieldsOf stages) :
    progress.soFar.failures.filter (·.field = some field.symbol) =
      (field.contributed progress.env policy).failures := by
  rw [h.failures]
  exact filter_flatMap_failures h.nodup_symbols (fun _ hmem _ ↦ h.named_of_mem_failures hmem) hfield

end Solved

end Problem

end Tradeoff
