import Tradeoff.Proofs.Evaluation.Bindings
import Tradeoff.Proofs.Evaluation.Policy

/-!
# Outcomes of an evaluation

An evaluation of an expression ends in a column with a value for each sample, whatever the lengths
of the bound columns are, or in one of few errors: a fault for which no single sample is to blame, a
mentioned symbol that is not bound, or a bound column of another length
(`Expr.attemptColumn_ends`). In an environment that fits and binds what the expression mentions,
only the first of them is left (`Expr.failure_of_settle_eq_error`).
-/

namespace Tradeoff

/-! ### Policies -/

/-- A policy gives the result of an attempt or makes one of its failures an error. -/
theorem Policy.settle_eq_error {α : Type} {policy : Policy} {a : Attempt Failure α}
    {error : EvalError} (h : policy.settle a = .error error) :
    (∃ f, error = .failure f) ∨ a.result = .error error := by
  obtain ⟨notes, result⟩ := a
  cases policy with
  | failFast =>
    cases notes with
    | nil =>
      cases result with
      | error e => cases h; exact Or.inr rfl
      | ok value => cases h
    | cons f notes =>
      cases h
      exact Or.inl ⟨f, rfl⟩
  | perRow =>
    cases result with
    | error e => cases h; exact Or.inr rfl
    | ok value => cases h

/-- The value of an attempt that is settled is its own value. -/
theorem Policy.settle_eq_ok {α : Type} {policy : Policy} {a : Attempt Failure α} {value : α}
    {failures : List Failure} (h : policy.settle a = .ok (value, failures)) :
    a.result = .ok value := by
  obtain ⟨notes, result⟩ := a
  cases policy with
  | failFast =>
    cases notes with
    | nil =>
      cases result with
      | error e => cases h
      | ok value => cases h; rfl
    | cons f notes => cases h
  | perRow =>
    cases result with
    | error e => cases h
    | ok value => cases h; rfl

/-! ### Errors of expressions -/

/-- Every column of the value has a value for each of so many samples. -/
def Value.Fits (rows : Nat) : Value → Prop
  | scalar column => column.Fits rows
  | vector _ components => ∀ column ∈ components, column.Fits rows

namespace Scene

/-- The errors in which the evaluation of an expression that mentions some symbols can end. -/
def CanEndIn (scene : Scene) (symbols : List String) : EvalError → Prop
  | .failure failure => failure.field = scene.field ∧ failure.sample = none
  | .unknownSymbol symbol _ => symbol ∈ symbols ∧ symbol ∉ scene.env.symbols
  | .table _ => ¬scene.env.Fits
  | _ => False

variable {scene : Scene} {symbols symbols' : List String}

/-- With more symbols there may be more errors. -/
theorem CanEndIn.mono (hsub : ∀ symbol ∈ symbols, symbol ∈ symbols') (error : EvalError)
    (h : scene.CanEndIn symbols error) : scene.CanEndIn symbols' error := by
  cases error with
  | unknownSymbol symbol field => exact ⟨hsub symbol h.1, h.2⟩
  | _ => exact h

/-- A structural error may always come. -/
theorem ends_structural {α : Type} {P : α → Prop} (node : Expr) (fault : Fault) :
    (Attempt.fail (scene.structural node fault) : Attempt Failure α).Ends P
      (scene.CanEndIn symbols) := ⟨rfl, rfl⟩

/-! ### Steps -/

/-- A column that is used fits, and one that does not fit shows that the environment does not. -/
theorem misfit?_eq_none_iff {symbol : String} {column : Column} :
    scene.misfit? symbol column = none ↔ column.Fits scene.env.rows := by
  cases column with
  | constant value => exact iff_of_true rfl trivial
  | samples values =>
    by_cases h : values.size = scene.env.rows <;> simp [misfit?, Column.Fits, h]

/-- A column that does not fit may have been bound, but not in an environment that fits. -/
theorem canEndIn_of_misfit? {symbol : String} {column : Column} {error : EvalError}
    (h : scene.misfit? symbol column = some error)
    (hfits : scene.env.Fits → column.Fits scene.env.rows) : scene.CanEndIn symbols error := by
  cases column with
  | constant value => cases h
  | samples values =>
    by_cases hsize : values.size = scene.env.rows
    · rw [misfit?, if_pos hsize] at h
      cases h
    · rw [misfit?, if_neg hsize] at h
      cases h
      exact fun henv ↦ hsize (hfits henv)

/-- Looking up a symbol ends in what is bound to it or in an error about it. -/
theorem lookup_ends (scene : Scene) (symbol : String) :
    (scene.lookup symbol).Ends (Value.Fits scene.env.rows) (scene.CanEndIn [symbol]) := by
  unfold lookup
  rcases hfind : scene.env.find? symbol with _ | (column | components | flag)
  · exact ⟨List.mem_singleton_self symbol, Environment.find?_eq_none_iff.mp hfind⟩
  · dsimp only
    rcases hmisfit : scene.misfit? symbol column with _ | error
    · exact misfit?_eq_none_iff.mp hmisfit
    · exact canEndIn_of_misfit? hmisfit fun henv ↦ henv.of_find? hfind
  · dsimp only
    rcases hmisfit : components.findSome? (scene.misfit? symbol) with _ | error
    · have hnone := List.findSome?_eq_none_iff.mp hmisfit
      exact fun column hmem ↦ misfit?_eq_none_iff.mp (hnone column hmem)
    · obtain ⟨column, hmem, hcolumn⟩ := List.exists_of_findSome?_eq_some hmisfit
      exact canEndIn_of_misfit? hcolumn fun henv ↦ henv.of_find? hfind column hmem
  · exact ends_structural _ _

/-- A vector has fitting components, or there is a structural error. -/
theorem needVector_ends {value : Value} {rows : Nat} (h : value.Fits rows) (node : Expr) :
    (scene.needVector node value).Ends (fun components ↦ ∀ column ∈ components, column.Fits rows)
      (scene.CanEndIn symbols) := by
  cases value with
  | scalar column => exact ends_structural _ _
  | vector name components => exact h

/-- A number has a fitting column, or there is a structural error. -/
theorem needScalar_ends {value : Value} {rows : Nat} (h : value.Fits rows) (node : Expr) :
    (scene.needScalar node value).Ends (Column.Fits rows) (scene.CanEndIn symbols) := by
  cases value with
  | scalar column => exact h
  | vector name components => exact ends_structural _ _

/-- What stands for a vector fits as its components do. -/
theorem expand_ends {value : Value} {rows : Nat} (h : value.Fits rows) (op : Operator)
    (node : Expr) :
    (scene.expand op node value).Ends (fun columns ↦ ∀ column ∈ columns, column.Fits rows)
      (scene.CanEndIn symbols) := by
  cases value with
  | scalar column => exact fun c hc ↦ List.mem_singleton.mp hc ▸ h
  | vector name components =>
    by_cases hop : op.expandsVectors
    · rw [expand, if_pos hop]
      exact h
    · rw [expand, if_neg hop]
      exact ends_structural _ _

/-- A component fits, or there is a structural error. -/
theorem component_ends {components : List Column} {rows : Nat}
    (h : ∀ column ∈ components, column.Fits rows) (node indexNode : Expr) (index : Value) :
    (scene.component node indexNode components index).Ends (Value.Fits rows)
      (scene.CanEndIn symbols) := by
  unfold component
  split
  · exact ends_structural _ _
  · exact ends_structural _ _
  · split
    · next column hcolumn =>
      obtain ⟨offset, -, hget⟩ := Option.bind_eq_some_iff.mp hcolumn
      exact h column (List.mem_of_getElem? hget)
    · exact ends_structural _ _

/-- An operator gives a fitting column for any columns: it has a value for each sample. -/
theorem applyRows_ends (scene : Scene) (node : Expr) (op : Operator) (columns : List Column) :
    (scene.applyRows node op columns).Ends (Column.Fits scene.env.rows)
      (scene.CanEndIn symbols) := by
  unfold applyRows
  split
  · split <;> trivial
  · exact (Array.size_map.trans Array.size_map).trans Array.size_range

end Scene

/-! ### Expressions -/

namespace Expr

variable {scene : Scene}

/-- Columns of arguments fit, or there is an error of one of the arguments. -/
theorem attemptColumns_ends (op : Operator) {args : List Expr} {symbols : List String}
    (h : ∀ arg ∈ args,
      (arg.attempt scene).Ends (Value.Fits scene.env.rows) (scene.CanEndIn symbols)) :
    (attemptColumns scene op args).Ends
      (fun columns ↦ ∀ column ∈ columns, column.Fits scene.env.rows)
      (scene.CanEndIn symbols) := by
  induction args with
  | nil => exact fun _ hmem ↦ absurd hmem List.not_mem_nil
  | cons arg args ih =>
    rw [attemptColumns_cons]
    refine (h arg List.mem_cons_self).andThen fun value hvalue ↦ ?_
    refine (Scene.expand_ends hvalue op arg).andThen fun columns hcolumns ↦ ?_
    refine (ih fun arg hmem ↦ h arg (List.mem_cons_of_mem _ hmem)).andThen fun rest hrest ↦ ?_
    exact fun column hmem ↦ (List.mem_append.mp hmem).elim (hcolumns column) (hrest column)

/-- By induction on the nodes: every value fits. -/
theorem attempt_ends (scene : Scene) (e : Expr) :
    (e.attempt scene).Ends (Value.Fits scene.env.rows) (scene.CanEndIn e.mentions) := by
  induction e using attempt_induction with
  | number value => trivial
  | bool value => exact Scene.ends_structural _ _
  | symbol name => exact scene.lookup_ends name
  | refused op args h =>
    rw [attempt_refused scene h]
    exact Scene.ends_structural _ _
  | component vector index ihvector ihindex =>
    have hmentions (arg : Expr) (harg : arg ∈ [vector, index]) (symbol : String)
        (h : symbol ∈ arg.mentions) : symbol ∈ (operation .component [vector, index]).mentions :=
      mem_mentionsList.mpr ⟨arg, harg, h⟩
    rw [attempt_component]
    refine (ihvector.imp (fun _ ↦ id) (Scene.CanEndIn.mono (hmentions vector (by simp)))).andThen
      fun value hvalue ↦ ?_
    refine (Scene.needVector_ends hvalue vector).andThen fun components hcomponents ↦ ?_
    refine (ihindex.imp (fun _ ↦ id) (Scene.CanEndIn.mono (hmentions index (by simp)))).andThen
      fun position _ ↦ ?_
    exact Scene.component_ends hcomponents _ index position
  | applied op args hop h ih =>
    have hargs (arg : Expr) (harg : arg ∈ args) :
        (arg.attempt scene).Ends (Value.Fits scene.env.rows)
          (scene.CanEndIn (operation op args).mentions) :=
      (ih arg harg).imp (fun _ ↦ id)
        (Scene.CanEndIn.mono fun _ h ↦ mem_mentionsList.mpr ⟨arg, harg, h⟩)
    rw [attempt_applied scene hop h]
    refine (attemptColumns_ends op hargs).andThen fun columns _ ↦ ?_
    exact (scene.applyRows_ends _ op columns).andThen fun column hcolumn ↦ hcolumn

theorem attemptColumn_ends (scene : Scene) (e : Expr) :
    (e.attemptColumn scene).Ends (Column.Fits scene.env.rows) (scene.CanEndIn e.mentions) := by
  rw [attemptColumn_eq]
  exact (attempt_ends scene e).andThen fun value hvalue ↦ Scene.needScalar_ends hvalue e

/-! ### What an evaluation gives -/

/-- An expression outside of a field evaluates to the values of its settled column. -/
theorem evaluate_eq_ok_iff {e : Expr} {env : Environment} {policy : Policy} {values : Array Float}
    {failures : List Failure} : e.evaluate env policy = .ok (values, failures) ↔
      ∃ column, policy.settle (e.attemptColumn ⟨env, none⟩) = .ok (column, failures) ∧
        column.broadcast env.rows = values := by
  rw [evaluate_eq]
  rcases policy.settle (e.attemptColumn ⟨env, none⟩) with error | ⟨column, reported⟩
  · simp [Except.map]
  · simp only [Except.map, Except.ok.injEq, Prod.mk.injEq]
    exact ⟨fun ⟨hvalues, hfailures⟩ ↦ ⟨column, ⟨rfl, hfailures⟩, hvalues⟩,
      fun ⟨_, ⟨hcolumn, hfailures⟩, hvalues⟩ ↦ ⟨hcolumn ▸ hvalues, hfailures⟩⟩

/-- Outside of a field, an expression fails just as settling its column does. -/
theorem evaluate_eq_error_iff {e : Expr} {env : Environment} {policy : Policy}
    {error : EvalError} : e.evaluate env policy = .error error ↔
      policy.settle (e.attemptColumn ⟨env, none⟩) = .error error := by
  rw [evaluate_eq]
  rcases policy.settle (e.attemptColumn ⟨env, none⟩) with failure | settled <;> simp [Except.map]

/-- In an environment that fits and binds what an expression mentions, nothing but a failure keeps
it from having a value. -/
theorem failure_of_settle_eq_error {policy : Policy} {e : Expr} {error : EvalError}
    (hfits : scene.env.Fits) (hbound : ∀ symbol ∈ e.mentions, symbol ∈ scene.env.symbols)
    (h : policy.settle (e.attemptColumn scene) = .error error) : ∃ f, error = .failure f := by
  rcases Policy.settle_eq_error h with hfailure | hresult
  · exact hfailure
  · have hends : scene.CanEndIn e.mentions error := (attemptColumn_ends scene e).of_error hresult
    cases error with
    | failure f => exact ⟨f, rfl⟩
    | unknownSymbol symbol field => exact absurd (hbound symbol hends.1) hends.2
    | table error => exact absurd hfits hends
    | _ => exact hends.elim

end Expr

end Tradeoff
