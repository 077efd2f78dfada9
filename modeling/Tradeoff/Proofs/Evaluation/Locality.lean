import Tradeoff.Proofs.Evaluation.Outcomes
import Tradeoff.Proofs.Evaluation.Stages

/-!
# What an evaluation depends on

The evaluation of an expression depends on the number of samples and on what the symbols that it
mentions are bound to, and on nothing else of the environment (`Expr.attemptColumn_congr`). So it
goes the same way in environments with their bindings in different order, and in an environment that
has got more bindings.

The field that an expression belongs to is only written into the failures. Outside of a field an
expression has the same column and the same failures without a field (`Expr.evaluate_of_field`).
-/

namespace Tradeoff

/-! ### Bindings -/

namespace Scene

variable {env env' : Environment} {field : Option String}

/-- The number of samples decides which failures of rows there can be. -/
theorem rowFailures_of_rows_eq (hrows : env.rows = env'.rows) (node : Expr)
    (fault? : Nat → Option Fault) :
    rowFailures ⟨env, field⟩ node fault? = rowFailures ⟨env', field⟩ node fault? := by
  simp only [rowFailures, hrows]

/-- Looking up a symbol depends on its binding. -/
theorem lookup_congr (hrows : env.rows = env'.rows) {symbol : String}
    (h : env.find? symbol = env'.find? symbol) :
    lookup ⟨env, field⟩ symbol = lookup ⟨env', field⟩ symbol := by
  have hmisfit : misfit? ⟨env, field⟩ symbol = misfit? ⟨env', field⟩ symbol := by
    funext column
    cases column <;> simp only [misfit?, hrows]
  simp only [lookup, h, hmisfit]
  rfl

/-- Applying an operator depends on the number of samples. -/
theorem applyRows_of_rows_eq (hrows : env.rows = env'.rows) (node : Expr) (op : Operator)
    (columns : List Column) :
    applyRows ⟨env, field⟩ node op columns = applyRows ⟨env', field⟩ node op columns := by
  unfold applyRows
  split
  · simp only [rowFailures_of_rows_eq hrows]
  · simp only [rowFailures_of_rows_eq hrows, hrows]

end Scene

namespace Expr

variable {env env' : Environment} {field : Option String}

/-- Arguments depend on what each of them depends on. -/
theorem attemptColumns_congr (op : Operator) {args : List Expr}
    (h : ∀ arg ∈ args, arg.attempt ⟨env, field⟩ = arg.attempt ⟨env', field⟩) :
    attemptColumns ⟨env, field⟩ op args = attemptColumns ⟨env', field⟩ op args := by
  induction args with
  | nil => rfl
  | cons arg args ih =>
    rw [attemptColumns_cons, attemptColumns_cons, h arg List.mem_cons_self,
      ih fun next hnext ↦ h next (List.mem_cons_of_mem _ hnext)]
    rfl

/-- An expression is evaluated from the bindings of the symbols that it mentions. -/
theorem attempt_congr (hrows : env.rows = env'.rows) (e : Expr)
    (h : ∀ symbol ∈ e.mentions, env.find? symbol = env'.find? symbol) :
    e.attempt ⟨env, field⟩ = e.attempt ⟨env', field⟩ := by
  induction e using attempt_induction with
  | number value => rfl
  | bool value => rfl
  | symbol name => exact Scene.lookup_congr hrows (h name (List.mem_singleton_self name))
  | refused op args hrefused =>
    rw [attempt_refused _ hrefused, attempt_refused _ hrefused]
    rfl
  | component vector index ihvector ihindex =>
    have hargs (arg : Expr) (harg : arg ∈ [vector, index]) (symbol : String)
        (hsymbol : symbol ∈ arg.mentions) : env.find? symbol = env'.find? symbol :=
      h symbol (mem_mentionsList.mpr ⟨arg, harg, hsymbol⟩)
    rw [attempt_component, attempt_component, ihvector (hargs vector (by simp)),
      ihindex (hargs index (by simp))]
    rfl
  | applied op args hop haccepts ih =>
    have hargs (arg : Expr) (harg : arg ∈ args) :
        arg.attempt ⟨env, field⟩ = arg.attempt ⟨env', field⟩ :=
      ih arg harg fun symbol hsymbol ↦ h symbol (mem_mentionsList.mpr ⟨arg, harg, hsymbol⟩)
    rw [attempt_applied _ hop haccepts, attempt_applied _ hop haccepts,
      attemptColumns_congr op hargs]
    congr 1
    funext columns
    rw [Scene.applyRows_of_rows_eq hrows]

/-- So a field depends on the symbols that its expression mentions. -/
theorem attemptColumn_congr (hrows : env.rows = env'.rows) {e : Expr}
    (h : ∀ symbol ∈ e.mentions, env.find? symbol = env'.find? symbol) :
    e.attemptColumn ⟨env, field⟩ = e.attemptColumn ⟨env', field⟩ := by
  rw [attemptColumn_eq, attemptColumn_eq, attempt_congr hrows e h]
  rfl

end Expr

/-- The contribution of a field depends on the symbols that its expression mentions. A constant
depends on nothing, and an objective without an expression is an error anyway. -/
theorem Field.contribute_congr {env env' : Environment} {field : Field} (policy : Policy)
    (hrows : env.rows = env'.rows)
    (h : ∀ e, field.expr? = some e → ∀ symbol ∈ e.mentions, env.find? symbol = env'.find? symbol) :
    field.contribute env policy = field.contribute env' policy := by
  rcases field.expr?_cases with ⟨e, hexpr⟩ | ⟨constant, rfl⟩ | ⟨hexpr, hno⟩
  · rw [contribute_of_expr? hexpr, contribute_of_expr? hexpr,
      Expr.attemptColumn_congr hrows (h e hexpr)]
  · rfl
  · rw [contribute_of_no_expr? hexpr hno, contribute_of_no_expr? hexpr hno]

/-! ### The field -/

variable {α β : Type} {symbol : String}

/-- The failure as one of a field. -/
def Failure.ofField (symbol : String) (f : Failure) : Failure := { f with field := some symbol }

/-- The error as one of a field. -/
def EvalError.ofField (symbol : String) : EvalError → EvalError
  | .failure f => .failure (f.ofField symbol)
  | .unknownSymbol unknown _ => .unknownSymbol unknown symbol
  | error => error

/-- The attempt as one of a field. -/
def Attempt.ofField (symbol : String) (a : Attempt Failure α) : Attempt Failure α :=
  ⟨a.notes.map (Failure.ofField symbol), a.result.mapError (EvalError.ofField symbol)⟩

/-- An attempt of a field is followed by attempts of the field. -/
theorem Attempt.ofField_andThen {a : Attempt Failure α} {next next' : α → Attempt Failure β}
    (h : ∀ value, (next value).ofField symbol = next' value) :
    (a.andThen next).ofField symbol = (a.ofField symbol).andThen next' := by
  obtain ⟨notes, error | value⟩ := a
  · rfl
  · have hvalue : ofField symbol ⟨notes, .ok value⟩ =
        ⟨notes.map (Failure.ofField symbol), .ok value⟩ := rfl
    rw [andThen_ok, hvalue, andThen_ok, ← h value]
    simp [ofField]

namespace Scene

variable {env : Environment}

/-- Failures of rows are written with the field. -/
theorem rowFailures_ofField (node : Expr) (fault? : Nat → Option Fault) :
    (rowFailures ⟨env, none⟩ node fault?).map (Failure.ofField symbol) =
      rowFailures ⟨env, some symbol⟩ node fault? := by
  simp only [rowFailures, List.map_filterMap, Option.map_map]
  rfl

theorem lookup_ofField (name : String) :
    (lookup ⟨env, none⟩ name).ofField symbol = lookup ⟨env, some symbol⟩ name := by
  have hmisfit (column : Column) :
      misfit? ⟨env, some symbol⟩ name column = misfit? ⟨env, none⟩ name column := by
    cases column <;> rfl
  -- Columns that do not fit are no matter of the field.
  have hkept {column : Column} {error : EvalError}
      (h : misfit? ⟨env, none⟩ name column = some error) : error.ofField symbol = error := by
    cases column with
    | constant value => cases h
    | samples values =>
      by_cases hsize : values.size = env.rows
      · rw [misfit?, if_pos hsize] at h
        cases h
      · rw [misfit?, if_neg hsize] at h
        cases h
        rfl
  unfold lookup
  dsimp only
  rcases env.find? name with _ | (column | components | flag)
  · rfl
  · simp only [hmisfit]
    rcases hcolumn : misfit? ⟨env, none⟩ name column with _ | error
    · rfl
    · exact congrArg Attempt.fail (hkept hcolumn)
  · have hsame : misfit? ⟨env, some symbol⟩ name = misfit? ⟨env, none⟩ name := funext hmisfit
    simp only [hsame]
    rcases hcomponents : components.findSome? (misfit? ⟨env, none⟩ name) with _ | error
    · rfl
    · obtain ⟨column, -, hcolumn⟩ := List.exists_of_findSome?_eq_some hcomponents
      exact congrArg Attempt.fail (hkept hcolumn)
  · rfl

theorem needVector_ofField (node : Expr) (value : Value) :
    (needVector ⟨env, none⟩ node value).ofField symbol =
      needVector ⟨env, some symbol⟩ node value := by
  cases value <;> rfl

theorem needScalar_ofField (node : Expr) (value : Value) :
    (needScalar ⟨env, none⟩ node value).ofField symbol =
      needScalar ⟨env, some symbol⟩ node value := by
  cases value <;> rfl

theorem expand_ofField (op : Operator) (node : Expr) (value : Value) :
    (expand ⟨env, none⟩ op node value).ofField symbol =
      expand ⟨env, some symbol⟩ op node value := by
  cases value with
  | scalar column => rfl
  | vector name components =>
    rw [expand, expand]
    split <;> rfl

theorem component_ofField (node indexNode : Expr) (components : List Column) (index : Value) :
    (component ⟨env, none⟩ node indexNode components index).ofField symbol =
      component ⟨env, some symbol⟩ node indexNode components index := by
  unfold component
  split
  · rfl
  · rfl
  · split <;> rfl

theorem applyRows_ofField (node : Expr) (op : Operator) (columns : List Column) :
    (applyRows ⟨env, none⟩ node op columns).ofField symbol =
      applyRows ⟨env, some symbol⟩ node op columns := by
  unfold applyRows
  split
  · split
    · rfl
    · rw [Attempt.ofField, rowFailures_ofField]
      rfl
  · dsimp only
    rw [Attempt.ofField, rowFailures_ofField]
    rfl

end Scene

namespace Expr

variable {env : Environment}

theorem attemptColumns_ofField (op : Operator) {args : List Expr}
    (h : ∀ arg ∈ args,
      (arg.attempt ⟨env, none⟩).ofField symbol = arg.attempt ⟨env, some symbol⟩) :
    (attemptColumns ⟨env, none⟩ op args).ofField symbol =
      attemptColumns ⟨env, some symbol⟩ op args := by
  induction args with
  | nil => rfl
  | cons arg args ih =>
    have hargs := ih fun next hnext ↦ h next (List.mem_cons_of_mem _ hnext)
    rw [attemptColumns_cons, attemptColumns_cons, ← h arg List.mem_cons_self]
    refine Attempt.ofField_andThen fun value ↦ ?_
    rw [← Scene.expand_ofField]
    refine Attempt.ofField_andThen fun columns ↦ ?_
    rw [← hargs]
    exact Attempt.ofField_andThen fun rest ↦ rfl

/-- The field of an expression is only written into its failures and errors. -/
theorem attempt_ofField (e : Expr) :
    (e.attempt ⟨env, none⟩).ofField symbol = e.attempt ⟨env, some symbol⟩ := by
  induction e using attempt_induction with
  | number value => rfl
  | bool value => rfl
  | symbol name => exact Scene.lookup_ofField name
  | refused op args h =>
    rw [attempt_refused _ h, attempt_refused _ h]
    rfl
  | component vector index ihvector ihindex =>
    rw [attempt_component, attempt_component, ← ihvector]
    refine Attempt.ofField_andThen fun value ↦ ?_
    rw [← Scene.needVector_ofField]
    refine Attempt.ofField_andThen fun components ↦ ?_
    rw [← ihindex]
    exact Attempt.ofField_andThen fun position ↦ Scene.component_ofField _ _ _ position
  | applied op args hop h ih =>
    rw [attempt_applied _ hop h, attempt_applied _ hop h, ← attemptColumns_ofField op ih]
    refine Attempt.ofField_andThen fun columns ↦ ?_
    rw [← Scene.applyRows_ofField]
    exact Attempt.ofField_andThen fun column ↦ rfl

theorem attemptColumn_ofField (e : Expr) :
    (e.attemptColumn ⟨env, none⟩).ofField symbol = e.attemptColumn ⟨env, some symbol⟩ := by
  rw [attemptColumn_eq, attemptColumn_eq, ← attempt_ofField]
  exact Attempt.ofField_andThen fun value ↦ Scene.needScalar_ofField e value

end Expr

/-- What changes no sample does not change which failures are reported. -/
theorem firstPerSample_map {g : Failure → Failure} (hg : ∀ f, (g f).sample = f.sample)
    (seen : List (Option Nat)) (failures : List Failure) :
    firstPerSample seen (failures.map g) = (firstPerSample seen failures).map g := by
  induction failures generalizing seen with
  | nil => rfl
  | cons f failures ih =>
    rw [List.map_cons, firstPerSample, firstPerSample, hg, ih, ih]
    split <;> rfl

/-- The failures to report are the same, each with the field. -/
theorem Policy.settle_of_ofField {policy : Policy} {a : Attempt Failure α} {value : α}
    {failures : List Failure} (h : policy.settle (a.ofField symbol) = .ok (value, failures)) :
    ∃ failures', policy.settle a = .ok (value, failures') ∧
      failures = failures'.map (Failure.ofField symbol) := by
  obtain ⟨notes, error | result⟩ := a
  · cases policy <;> cases notes <;> cases h
  · cases policy with
    | failFast =>
      cases notes with
      | nil =>
        cases h
        exact ⟨[], rfl, rfl⟩
      | cons f notes => cases h
    | perRow =>
      cases h
      exact ⟨_, rfl, firstPerSample_map (g := Failure.ofField symbol) (fun _ ↦ rfl) [] notes⟩

/-- What is settled of an expression in a field is settled of the expression by itself, with
failures that name no field. -/
theorem Expr.evaluate_of_field {env : Environment} {policy : Policy} {e : Expr} {column : Column}
    {failures : List Failure}
    (h : policy.settle (e.attemptColumn ⟨env, some symbol⟩) = .ok (column, failures)) :
    ∃ failures', e.evaluate env policy = .ok (column.broadcast env.rows, failures') ∧
      failures = failures'.map (Failure.ofField symbol) := by
  rw [← attemptColumn_ofField] at h
  obtain ⟨failures', hsettle, hfailures⟩ := Policy.settle_of_ofField h
  refine ⟨failures', ?_, hfailures⟩
  rw [evaluate_eq, hsettle]
  rfl

end Tradeoff
