import Tradeoff.Proofs.Evaluation.Faults
import Tradeoff.Proofs.Evaluation.Reread

/-!
# What the form of the bindings decides

Whether an expression ends in an error, and in which, depends on the form of the bindings alone:
whether a symbol is bound to a scalar, a vector or a truth value, which columns are constant, and to
which constants (`Expr.attemptColumn_agrees`). The values for the samples have no part in it. Even
the index of a component, which is computed like anything else, has to come from constants.

Together with the two kinds of faults this says what a policy can and cannot confine to rows
(`Expr.evaluate_by_form`).
-/

namespace Tradeoff

/-! ### The same form -/

/-- The columns are the same constant, or both have a value for each of so many samples. -/
inductive Column.SameForm (rows : Nat) : Column → Column → Prop where
  /-- The same constant. -/
  | constant (value : Float) : SameForm rows (.constant value) (.constant value)
  /-- Any values for the samples. -/
  | samples {values values' : Array Float} : values.size = rows → values'.size = rows →
      SameForm rows (.samples values) (.samples values')

/-- The bindings are of one kind, with columns of the same form or the same truth value. -/
inductive Binding.SameForm (rows : Nat) : Binding → Binding → Prop where
  /-- Scalars. -/
  | scalar {column column' : Column} : column.SameForm rows column' →
      SameForm rows (.scalar column) (.scalar column')
  /-- Vectors with as many components. -/
  | vector {components components' : List Column} :
      List.Forall₂ (Column.SameForm rows) components components' →
      SameForm rows (.vector components) (.vector components')
  /-- The same truth value. -/
  | flag (value : Bool) : SameForm rows (.flag value) (.flag value)

/-- The environments have as many samples and bind the same symbols, in any order, to bindings of
the same form. -/
structure Environment.SameForm (env env' : Environment) : Prop where
  /-- They have as many samples. -/
  rows_eq : env.rows = env'.rows
  /-- A symbol has bindings of the same form in both or none in either. -/
  find? (symbol : String) :
    Option.Rel (Binding.SameForm env.rows) (env.find? symbol) (env'.find? symbol)

/-- The values are scalars of the same form, or vectors of the same symbol with components of the
same form. -/
inductive Value.SameForm (rows : Nat) : Value → Value → Prop where
  /-- Scalars. -/
  | scalar {column column' : Column} : column.SameForm rows column' →
      SameForm rows (.scalar column) (.scalar column')
  /-- Vectors of a symbol. -/
  | vector (symbol : String) {components components' : List Column} :
      List.Forall₂ (Column.SameForm rows) components components' →
      SameForm rows (.vector symbol components) (.vector symbol components')

section

variable {rows : Nat}

/-- Columns of the same form have a value for each sample. -/
theorem Column.SameForm.fits {column column' : Column} (h : column.SameForm rows column') :
    column.Fits rows ∧ column'.Fits rows := by
  cases h with
  | constant value => exact ⟨trivial, trivial⟩
  | samples hsize hsize' => exact ⟨hsize, hsize'⟩

/-- In lists of the same form all columns have a value for each sample. -/
theorem fits_of_forall₂ {columns columns' : List Column}
    (h : List.Forall₂ (Column.SameForm rows) columns columns') :
    (∀ column ∈ columns, column.Fits rows) ∧ ∀ column ∈ columns', column.Fits rows := by
  induction h with
  | nil => exact ⟨nofun, nofun⟩
  | cons hcolumn _ ih =>
    exact ⟨List.forall_mem_cons.mpr ⟨hcolumn.fits.1, ih.1⟩,
      List.forall_mem_cons.mpr ⟨hcolumn.fits.2, ih.2⟩⟩

/-- At an offset there is a component in both lists, or in neither. -/
theorem rel_getElem? {columns columns' : List Column}
    (h : List.Forall₂ (Column.SameForm rows) columns columns') (offset : Nat) :
    Option.Rel (Column.SameForm rows) columns[offset]? columns'[offset]? := by
  induction h generalizing offset with
  | nil => exact .none
  | cons hcolumn _ ih =>
    cases offset with
    | zero => exact .some hcolumn
    | succ offset => exact ih offset

/-- Columns of the same form are all constant at the same time, and then they are the same. -/
theorem constants?_congr {columns columns' : List Column}
    (h : List.Forall₂ (Column.SameForm rows) columns columns') :
    constants? columns = constants? columns' := by
  induction h with
  | nil => rfl
  | cons hcolumn _ ih =>
    cases hcolumn with
    | constant value => rw [constants?, constants?, ih]
    | samples _ _ => rfl

end

/-! ### Attempts that agree -/

/-- Two attempts end in the same error or in related values, whatever they note. -/
def Attempt.Agrees {ν α β : Type} (R : α → β → Prop) (a : Attempt ν α) (b : Attempt ν β) : Prop :=
  match a.result, b.result with
  | .ok value, .ok value' => R value value'
  | .error error, .error error' => error = error'
  | _, _ => False

namespace Attempt

variable {ν α β γ δ : Type} {R : α → β → Prop} {S : γ → δ → Prop}

theorem agrees_succeed {value : α} {value' : β} (h : R value value') :
    (succeed value : Attempt ν α).Agrees R (succeed value') := h

theorem agrees_fail (error : EvalError) :
    (fail error : Attempt ν α).Agrees R (fail error : Attempt ν β) := rfl

/-- Attempts in a row agree if they do step by step. -/
theorem Agrees.andThen {a : Attempt ν α} {b : Attempt ν β} {next : α → Attempt ν γ}
    {next' : β → Attempt ν δ} (h : a.Agrees R b)
    (hnext : ∀ value value', R value value' → (next value).Agrees S (next' value')) :
    (a.andThen next).Agrees S (b.andThen next') := by
  obtain ⟨notes, error | value⟩ := a <;> obtain ⟨notes', error' | value'⟩ := b
  · exact h
  · exact h.elim
  · exact h.elim
  · exact hnext value value' h

end Attempt

/-- Attempts that agree end in the same errors. -/
theorem Attempt.Agrees.result_eq_error_iff {ν α β : Type} {R : α → β → Prop} {a : Attempt ν α}
    {b : Attempt ν β} (h : a.Agrees R b) {error : EvalError} :
    a.result = .error error ↔ b.result = .error error := by
  unfold Agrees at h
  split at h <;> simp_all

namespace Scene

variable {env env' : Environment} {field : Option String} {rows : Nat}

/-- A column that fits is what its symbol stands for. -/
theorem lookup_of_scalar {scene : Scene} {symbol : String} {column : Column}
    (hfind : scene.env.find? symbol = some (.scalar column)) (hfits : column.Fits scene.env.rows) :
    scene.lookup symbol = .succeed (.scalar column) := by
  rw [lookup_scalar hfind, misfit?_eq_none_iff.mpr hfits]

/-- A vector of columns that fit is what its symbol stands for. -/
theorem lookup_of_vector {scene : Scene} {symbol : String} {components : List Column}
    (hfind : scene.env.find? symbol = some (.vector components))
    (hfits : ∀ column ∈ components, column.Fits scene.env.rows) :
    scene.lookup symbol = .succeed (.vector symbol components) := by
  have hmisfit : components.findSome? (scene.misfit? symbol) = none :=
    List.findSome?_eq_none_iff.mpr fun column hcolumn ↦
      misfit?_eq_none_iff.mpr (hfits column hcolumn)
  simp only [lookup, hfind, hmisfit]

/-- Looking up a symbol comes to values of the same form, or to the same error. -/
theorem lookup_agrees (h : env.SameForm env') (symbol : String) :
    (lookup ⟨env, field⟩ symbol).Agrees (Value.SameForm env.rows)
      (lookup ⟨env', field⟩ symbol) := by
  have hfind := h.find? symbol
  rcases hbinding : env.find? symbol with _ | binding <;>
    rcases hbinding' : env'.find? symbol with _ | binding' <;>
    rw [hbinding, hbinding'] at hfind
  · simp only [lookup, hbinding, hbinding']
    exact Attempt.agrees_fail _
  · cases hfind
  · cases hfind
  · cases hfind with | some hform =>
    cases hform with
    | scalar hcolumn =>
      rw [lookup_of_scalar hbinding hcolumn.fits.1,
        lookup_of_scalar hbinding' (h.rows_eq ▸ hcolumn.fits.2)]
      exact .scalar hcolumn
    | vector hcomponents =>
      have hfits := fits_of_forall₂ hcomponents
      rw [lookup_of_vector hbinding hfits.1, lookup_of_vector hbinding' (h.rows_eq ▸ hfits.2)]
      exact .vector symbol hcomponents
    | flag value =>
      simp only [lookup, hbinding, hbinding']
      exact Attempt.agrees_fail _

/-- Whether a value is a vector is a matter of its form. -/
theorem needVector_agrees (node : Expr) {value value' : Value} (h : value.SameForm rows value') :
    (needVector ⟨env, field⟩ node value).Agrees (List.Forall₂ (Column.SameForm rows))
      (needVector ⟨env', field⟩ node value') := by
  cases h with
  | scalar _ => exact Attempt.agrees_fail _
  | vector symbol hcomponents => exact hcomponents

theorem needScalar_agrees (node : Expr) {value value' : Value} (h : value.SameForm rows value') :
    (needScalar ⟨env, field⟩ node value).Agrees (Column.SameForm rows)
      (needScalar ⟨env', field⟩ node value') := by
  cases h with
  | scalar hcolumn => exact hcolumn
  | vector symbol _ => exact Attempt.agrees_fail _

theorem expand_agrees (op : Operator) (node : Expr) {value value' : Value}
    (h : value.SameForm rows value') :
    (expand ⟨env, field⟩ op node value).Agrees (List.Forall₂ (Column.SameForm rows))
      (expand ⟨env', field⟩ op node value') := by
  cases h with
  | scalar hcolumn => exact .cons hcolumn .nil
  | vector symbol hcomponents =>
    rw [expand, expand]
    split
    · exact hcomponents
    · exact Attempt.agrees_fail _

/-- Only a constant can be an index, and a constant is the same in both. -/
theorem component_agrees (node indexNode : Expr) {components components' : List Column}
    (hcomponents : List.Forall₂ (Column.SameForm rows) components components')
    {index index' : Value} (hindex : index.SameForm rows index') :
    (component ⟨env, field⟩ node indexNode components index).Agrees (Value.SameForm rows)
      (component ⟨env', field⟩ node indexNode components' index') := by
  cases hindex with
  | vector symbol _ => exact Attempt.agrees_fail _
  | scalar hcolumn =>
    cases hcolumn with
    | samples _ _ => exact Attempt.agrees_fail _
    | constant value =>
      have hlength := hcomponents.length_eq
      have hcolumn : Option.Rel (Column.SameForm rows)
          ((offset? value).bind fun offset ↦ components[offset]?)
          ((offset? value).bind fun offset ↦ components'[offset]?) := by
        cases offset? value with
        | none => exact .none
        | some offset => exact rel_getElem? hcomponents offset
      simp only [component, hlength]
      generalize ((offset? value).bind fun offset ↦ components[offset]?) = column? at hcolumn ⊢
      generalize ((offset? value).bind fun offset ↦ components'[offset]?) = column?' at hcolumn ⊢
      cases hcolumn with
      | none => exact Attempt.agrees_fail _
      | some hcolumn => exact .scalar hcolumn

/-- Applied row by row, an operator ends in an error only if all columns are constant, and the
constants are part of the form. -/
theorem applyRows_agrees (hrows : env.rows = env'.rows) (node : Expr) (op : Operator)
    {columns columns' : List Column}
    (h : List.Forall₂ (Column.SameForm rows) columns columns') :
    (applyRows ⟨env, field⟩ node op columns).Agrees (Column.SameForm env.rows)
      (applyRows ⟨env', field⟩ node op columns') := by
  rcases hconstants : constants? columns with _ | args
  · rw [applyRows_of_samples hconstants, applyRows_of_samples (constants?_congr h ▸ hconstants)]
    exact .samples (Array.size_map.trans Array.size_range)
      ((Array.size_map.trans Array.size_range).trans hrows.symm)
  · rw [applyRows_of_constants hconstants,
      applyRows_of_constants (constants?_congr h ▸ hconstants)]
    exact .constant _

end Scene

namespace Expr

variable {env env' : Environment} {field : Option String}

/-- Arguments agree from left to right. -/
theorem attemptColumns_agrees (op : Operator) {args : List Expr}
    (h : ∀ arg ∈ args, (arg.attempt ⟨env, field⟩).Agrees (Value.SameForm env.rows)
      (arg.attempt ⟨env', field⟩)) :
    (attemptColumns ⟨env, field⟩ op args).Agrees (List.Forall₂ (Column.SameForm env.rows))
      (attemptColumns ⟨env', field⟩ op args) := by
  induction args with
  | nil => exact Attempt.agrees_succeed .nil
  | cons arg args ih =>
    have hargs := ih fun next hnext ↦ h next (List.mem_cons_of_mem _ hnext)
    rw [attemptColumns_cons, attemptColumns_cons]
    refine (h arg List.mem_cons_self).andThen fun value value' hvalue ↦ ?_
    refine (Scene.expand_agrees op arg hvalue).andThen fun columns columns' hcolumns ↦ ?_
    exact hargs.andThen fun rest rest' hrest ↦
      Attempt.agrees_succeed (List.rel_append hcolumns hrest)

/-- By induction along the evaluation: environments of the same form lead to values of the same form
at every node, and nothing but the form decides whether there is a value. -/
theorem attempt_agrees (h : env.SameForm env') (e : Expr) :
    (e.attempt ⟨env, field⟩).Agrees (Value.SameForm env.rows) (e.attempt ⟨env', field⟩) := by
  induction e using attempt_induction with
  | number value => exact Attempt.agrees_succeed (.scalar (.constant value))
  | bool value => exact Attempt.agrees_fail _
  | symbol name => exact Scene.lookup_agrees h name
  | refused op args hrefused =>
    rw [attempt_refused _ hrefused, attempt_refused _ hrefused]
    exact Attempt.agrees_fail _
  | component vector index ihvector ihindex =>
    rw [attempt_component, attempt_component]
    refine ihvector.andThen fun value value' hvalue ↦ ?_
    refine (Scene.needVector_agrees vector hvalue).andThen fun components components' hform ↦ ?_
    exact ihindex.andThen fun position position' hposition ↦
      Scene.component_agrees _ index hform hposition
  | applied op args hop haccepts ih =>
    rw [attempt_applied _ hop haccepts, attempt_applied _ hop haccepts]
    refine (attemptColumns_agrees op ih).andThen fun columns columns' hcolumns ↦ ?_
    refine (Scene.applyRows_agrees h.rows_eq _ op hcolumns).andThen fun column column' hcolumn ↦ ?_
    exact Attempt.agrees_succeed (.scalar hcolumn)

theorem attemptColumn_agrees (h : env.SameForm env') (e : Expr) :
    (e.attemptColumn ⟨env, field⟩).Agrees (Column.SameForm env.rows)
      (e.attemptColumn ⟨env', field⟩) := by
  rw [attemptColumn_eq, attemptColumn_eq]
  exact (attempt_agrees h e).andThen fun value value' hvalue ↦ Scene.needScalar_agrees e hvalue

end Expr

/-! ### Outcomes -/

/-- Environments of the same form fit. -/
theorem Environment.SameForm.fits {env env' : Environment} (h : env.SameForm env') : env.Fits := by
  rintro ⟨symbol, binding⟩ hmem
  have hfind := h.find? symbol
  have hbinding : env.find? symbol = some binding := SymbolMap.find?_eq_some_iff.mpr hmem
  rw [hbinding] at hfind
  generalize env'.find? symbol = binding? at hfind
  cases hfind with | some hform =>
  cases hform with
  | scalar hcolumn => exact hcolumn.fits.1
  | vector hcomponents => exact (fits_of_forall₂ hcomponents).1
  | flag value => trivial

/-- The error of an attempt that is settled is its own error or one of the failures it noted. -/
theorem Policy.mem_notes_or_of_settle {α : Type} {policy : Policy} {a : Attempt Failure α}
    {f : Failure} (h : policy.settle a = .error (.failure f)) :
    f ∈ a.notes ∨ a.result = .error (.failure f) := by
  obtain ⟨_ | ⟨g, notes⟩, error | result⟩ := a <;> cases policy <;> cases h
  · exact .inr rfl
  · exact .inr rfl
  · exact .inl List.mem_cons_self
  · exact .inr rfl
  · exact .inl List.mem_cons_self

namespace Expr

variable {env env' : Environment}

/-- With failures confined, an expression ends in the errors of its attempt and in no others. -/
theorem evaluate_perRow_eq_error_iff {e : Expr} {error : EvalError} :
    e.evaluate env .perRow = .error error ↔
      (e.attemptColumn ⟨env, none⟩).result = .error error := by
  rw [evaluate_of_perRow]
  generalize (e.attemptColumn ⟨env, none⟩).result = result
  cases result <;> simp [Except.map]

/-- A fault that is noted is one of a sample, with the sample. -/
theorem isOfSample_of_mem_notes {scene : Scene} {e : Expr} {f : Failure}
    (h : f ∈ (e.attemptColumn scene).notes) :
    (∃ sample < scene.env.rows, f.sample = some sample) ∧ f.fault.IsOfSample :=
  ⟨(e.attemptColumn_places scene f h).2, (e.attemptColumn_sorted scene).notes f h⟩

/-- Where failures are reported, nothing but the form of the bindings decides whether an expression
ends in an error, and in which: an unbound symbol, or a failure that is of no sample. Conversely the
failures that are reported are of samples, and faults of two kinds. So whatever the policy is, a
fault is one of a sample exactly if the failure names a sample. -/
theorem evaluate_by_form (e : Expr) :
    (∀ env env', env.SameForm env' →
      (∀ error, e.evaluate env .perRow = .error error ↔ e.evaluate env' .perRow = .error error) ∧
      ∀ error, e.evaluate env .perRow = .error error →
        (∃ symbol field, error = .unknownSymbol symbol field) ∨
          ∃ f, error = .failure f ∧ f.sample = none) ∧
    (∀ env policy values failures, e.evaluate env policy = .ok (values, failures) →
      ∀ f ∈ failures, (∃ sample < env.rows, f.sample = some sample) ∧
        (f.fault = .divisionByZero ∨ ∃ op, f.fault = .domain op)) ∧
    ∀ env policy f, (e.evaluate env policy = .error (.failure f) ∨
        ∃ values failures, e.evaluate env policy = .ok (values, failures) ∧ f ∈ failures) →
      (f.fault.isPerSample ↔ f.sample.isSome) := by
  have hreported {env policy values failures}
      (h : e.evaluate env policy = .ok (values, failures)) {f : Failure} (hf : f ∈ failures) :
      f ∈ (e.attemptColumn ⟨env, none⟩).notes := by
    obtain ⟨column, hsettle, -⟩ := evaluate_eq_ok_iff.mp h
    exact Policy.mem_notes_of_settle hsettle hf
  refine ⟨fun env env' hform ↦ ⟨fun error ↦ ?_, fun error herror ↦ ?_⟩,
    fun env policy values failures h f hf ↦ isOfSample_of_mem_notes (hreported h hf),
    fun env policy f htold ↦ ?_⟩
  · rw [evaluate_perRow_eq_error_iff, evaluate_perRow_eq_error_iff]
    exact (attemptColumn_agrees hform e).result_eq_error_iff
  · rw [evaluate_perRow_eq_error_iff] at herror
    have hends := (attemptColumn_ends _ e).of_error herror
    cases error with
    | failure f => exact .inr ⟨f, rfl, hends.2⟩
    | unknownSymbol symbol field => exact .inl ⟨symbol, field, rfl⟩
    | table error => exact absurd hform.fits hends
    | _ => exact hends.elim
  · have hcases : f ∈ (e.attemptColumn ⟨env, none⟩).notes ∨
        (e.attemptColumn ⟨env, none⟩).result = .error (.failure f) := by
      rcases htold with herror | ⟨values, failures, h, hf⟩
      · exact Policy.mem_notes_or_of_settle (evaluate_eq_error_iff.mp herror)
      · exact .inl (hreported h hf)
    rcases hcases with hnoted | hresult
    · obtain ⟨⟨sample, -, hsample⟩, hfault⟩ := isOfSample_of_mem_notes hnoted
      exact iff_of_true (Fault.isPerSample_iff.mpr hfault) (by rw [hsample]; rfl)
    · obtain ⟨hsample, hfault⟩ := (e.attemptColumn_sorted _).ends.of_error hresult f rfl
      rw [hsample, hfault]
      exact iff_of_false nofun nofun

end Expr

/-- Environments that bind the same symbols in the same order, to bindings of the same form. -/
theorem Environment.SameForm.of_entries {env env' : Environment} (hrows : env.rows = env'.rows)
    (h : List.Forall₂ (fun entry entry' ↦ entry.1 = entry'.1 ∧
      Binding.SameForm env.rows entry.2 entry'.2) env.bindings.entries env'.bindings.entries) :
    env.SameForm env' := by
  refine ⟨hrows, fun symbol ↦ ?_⟩
  show Option.Rel _ (env.bindings.entries.lookup symbol) (env'.bindings.entries.lookup symbol)
  generalize env.bindings.entries = entries at h ⊢
  generalize env'.bindings.entries = entries' at h ⊢
  induction h with
  | nil => exact .none
  | cons hentry _ ih =>
    rw [List.lookup_cons, List.lookup_cons, hentry.1]
    split
    · exact .some hentry.2
    · exact ih

/-- A component of a vector divided by a scalar. -/
def Expr.componentQuotient : Expr :=
  .divide (.operation .component [.symbol "v", .symbol "k"]) (.symbol "x")

/-- Two samples, with an index that is the same for both. -/
def Environment.indexed (index : Float) (values : Array Float) : Environment :=
  (empty 2).bindAll
    [("v", .vector [.samples values, .constant 1]), ("k", .scalar (.constant index)),
      ("x", .scalar (.samples values))]

/-- Two values for a vector give the same form. -/
theorem Environment.indexed_sameForm (index : Float) (values values' : Array Float)
    (h : values.size = 2) (h' : values'.size = 2) :
    (indexed index values).SameForm (indexed index values') := by
  refine .of_entries rfl ?_
  refine .cons ⟨rfl, .vector (.cons (.samples h h') (.cons (.constant 1) .nil))⟩ ?_
  exact .cons ⟨rfl, .scalar (.constant index)⟩ (.cons ⟨rfl, .scalar (.samples h h')⟩ .nil)

/-- An index out of range is an error whatever the samples are, and a division by zero is reported
with its sample. -/
theorem Expr.componentQuotient_evaluate_by_form :
    (Environment.indexed 3 #[0, 1]).SameForm (.indexed 3 #[2, 5]) ∧
    (∃ f, componentQuotient.evaluate (.indexed 3 #[0, 1]) .perRow = .error (.failure f) ∧
      componentQuotient.evaluate (.indexed 3 #[2, 5]) .perRow = .error (.failure f) ∧
      f.sample = none) ∧
    ∃ values f, componentQuotient.evaluate (.indexed 1 #[0, 1]) .perRow = .ok (values, [f]) ∧
      f.sample = some 0 ∧ f.fault = .divisionByZero ∧ f.fault.isPerSample := by
  obtain ⟨hform, hreported, hsample⟩ := componentQuotient.evaluate_by_form
  have hsame := Environment.indexed_sameForm 3 #[0, 1] #[2, 5] rfl rfl
  have herror : componentQuotient.evaluate (.indexed 3 #[0, 1]) .perRow =
      .error (.failure ⟨none, "At(v, k)", none, .indexOutOfRange 3 2⟩) := by rfl
  have hvalues : (componentQuotient.evaluate (.indexed 1 #[0, 1]) .perRow).toOption =
      some (#[notANumber, 1], [⟨none, "At(v, k) / x", some 0, .divisionByZero⟩]) := by
    decide +kernel
  refine ⟨hsame, ⟨_, herror, ((hform _ _ hsame).1 _).mp herror, rfl⟩, ?_⟩
  rcases hresult : componentQuotient.evaluate (.indexed 1 #[0, 1]) .perRow with error | outcome
  · rw [hresult] at hvalues
    cases hvalues
  · rw [hresult] at hvalues
    obtain rfl := Option.some.inj hvalues
    exact ⟨_, _, rfl, rfl, rfl,
      (hsample _ _ _ (.inr ⟨_, _, hresult, List.mem_cons_self⟩)).mpr rfl⟩

end Tradeoff
