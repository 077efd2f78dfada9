import Tradeoff.Expr.Nodes
import Tradeoff.Proofs.Evaluation.Outcomes
import Tradeoff.Proofs.Evaluation.Stages

/-!
# What values inherit

Two properties of columns pass from the operands of an operation to its result: to vary from sample
to sample, and not to be a number at some sample. The second has another source too, the failures of
the sample. Where every operation passes a property on like this (`Scene.Inherits`), the value of a
whole expression has it exactly if a failure brought it in or what a mentioned symbol is bound to
has it (`Expr.attemptColumn_passes`).

The component operator does not compute and needs care. It takes one component and leaves the
others, so that all components of a vector have to have the property or none; and an index with the
property must not name a component.
-/

namespace Tradeoff

variable {α β : Type}

/-! ### Properties of columns -/

/-- The value has a column with the property. -/
def Value.Has (P : Column → Prop) : Value → Prop
  | scalar column => P column
  | vector _ components => ∃ column ∈ components, P column

/-- What is bound has a column with the property. -/
def Binding.Has (P : Column → Prop) : Binding → Prop
  | scalar column => P column
  | vector components => ∃ column ∈ components, P column
  | flag _ => False

/-- The symbol is bound to a column with the property, or to a vector with such a component. -/
def Environment.Has (env : Environment) (P : Column → Prop) (symbol : String) : Prop :=
  ∃ binding, env.find? symbol = some binding ∧ binding.Has P

/-- Operations pass the property on from their operands, and beside them only marked failures bring
it in. -/
structure Scene.Inherits (scene : Scene) (P : Column → Prop) (marked : Failure → Prop) : Prop where
  /-- A result has the property if an operand has it or a marked failure is recorded. -/
  applied : ∀ node op columns column, (scene.applyRows node op columns).result = .ok column →
    (P column ↔
      (∃ f ∈ (scene.applyRows node op columns).notes, marked f) ∨ ∃ operand ∈ columns, P operand)
  /-- All components of a vector have the property or none. -/
  uniform : ∀ symbol components, scene.env.find? symbol = some (.vector components) →
    ∀ column ∈ components, ∀ other ∈ components, P column → P other
  /-- An index with the property names no component. -/
  index : ∀ value, P (.constant value) → offset? value = none

/-! ### Attempts -/

/-- The value of an attempt has a property exactly for a cause or through a marked failure. -/
def Attempt.Passes (a : Attempt Failure α) (marked : Failure → Prop) (cause : Prop)
    (has : α → Prop) : Prop :=
  ∀ value, a.result = .ok value → (has value ↔ (∃ f ∈ a.notes, marked f) ∨ cause)

namespace Attempt

variable {marked : Failure → Prop} {cause cause' : Prop} {has : α → Prop} {has' : β → Prop}
  {a : Attempt Failure α}

/-- A value that is there has the property if there is a cause. -/
theorem passes_succeed {value : α} (h : has value ↔ cause) :
    (succeed value : Attempt Failure α).Passes marked cause has := by
  intro value' hvalue
  cases hvalue
  simp [succeed, h]

/-- After an error there is no value to have it. -/
theorem passes_fail (error : EvalError) :
    (fail error : Attempt Failure α).Passes marked cause has := by
  intro value hvalue
  cases hvalue

theorem Passes.congr (h : a.Passes marked cause has) (hcause : cause ↔ cause') :
    a.Passes marked cause' has := fun value hvalue ↦ (h value hvalue).trans (or_congr_right hcause)

/-- In a sequence the value of the first part is a cause for that of the second. -/
theorem Passes.andThen {next : α → Attempt Failure β} (h : a.Passes marked cause has)
    (hnext : ∀ value, a.result = .ok value →
      (next value).Passes marked (has value ∨ cause') has') :
    (a.andThen next).Passes marked (cause ∨ cause') has' := by
  obtain ⟨notes, error | value⟩ := a
  · intro last hlast
    cases hlast
  · intro last hlast
    have hnotes : (∃ f ∈ notes ++ (next value).notes, marked f) ↔
        (∃ f ∈ notes, marked f) ∨ ∃ f ∈ (next value).notes, marked f := by
      simp only [List.mem_append, or_and_right, exists_or]
    rw [hnext value rfl last hlast, h value rfl, andThen_ok, hnotes, or_assoc, or_assoc,
      or_left_comm]

/-- If the second part has no other cause, the causes are those of the first. -/
theorem Passes.andThen_value {next : α → Attempt Failure β} (h : a.Passes marked cause has)
    (hnext : ∀ value, a.result = .ok value → (next value).Passes marked (has value) has') :
    (a.andThen next).Passes marked cause has' :=
  (h.andThen fun value hvalue ↦ (hnext value hvalue).congr (Iff.of_eq (or_false _).symm)).congr
    (Iff.of_eq (or_false _))

end Attempt

/-! ### Steps -/

namespace Scene

variable {scene : Scene} {P : Column → Prop} {marked : Failure → Prop}

/-- What is looked up has the property if the binding has. -/
theorem lookup_passes (symbol : String) :
    (scene.lookup symbol).Passes marked (scene.env.Has P symbol) (Value.Has P) := by
  unfold lookup Environment.Has
  rcases scene.env.find? symbol with _ | (column | components | flag)
  · exact Attempt.passes_fail _
  · dsimp only
    split
    · exact Attempt.passes_fail _
    · exact Attempt.passes_succeed (by simp [Binding.Has, Value.Has])
  · dsimp only
    split
    · exact Attempt.passes_fail _
    · exact Attempt.passes_succeed (by simp [Binding.Has, Value.Has])
  · exact Attempt.passes_fail _

/-- A vector has it if one of its components has. -/
theorem needVector_passes (node : Expr) (value : Value) :
    (scene.needVector node value).Passes marked (value.Has P)
      fun components ↦ ∃ column ∈ components, P column := by
  cases value with
  | scalar column => exact Attempt.passes_fail _
  | vector name components => exact Attempt.passes_succeed Iff.rfl

/-- A number has it if its column has. -/
theorem needScalar_passes (node : Expr) (value : Value) :
    (scene.needScalar node value).Passes marked (value.Has P) P := by
  cases value with
  | scalar column => exact Attempt.passes_succeed Iff.rfl
  | vector name components => exact Attempt.passes_fail _

/-- A vector has it if one of the columns it stands for has. -/
theorem expand_passes (op : Operator) (node : Expr) (value : Value) :
    (scene.expand op node value).Passes marked (value.Has P)
      fun columns ↦ ∃ column ∈ columns, P column := by
  cases value with
  | scalar column => exact Attempt.passes_succeed (by simp [Value.Has])
  | vector name components =>
    rw [expand]
    split
    · exact Attempt.passes_succeed Iff.rfl
    · exact Attempt.passes_fail _

/-- The chosen component has the property if any component has it, and its index has not. -/
theorem component_passes (hindex : ∀ value, P (.constant value) → offset? value = none)
    {components : List Column}
    (huniform : ∀ column ∈ components, ∀ other ∈ components, P column → P other)
    (node indexNode : Expr) (index : Value) :
    (scene.component node indexNode components index).Passes marked
      (index.Has P ∨ ∃ column ∈ components, P column) (Value.Has P) := by
  rcases index with (value | values) | ⟨name, columns⟩
  · simp only [component]
    split
    · next column hcolumn =>
      obtain ⟨offset, hoffset, hget⟩ := Option.bind_eq_some_iff.mp hcolumn
      have hmem : column ∈ components := List.mem_of_getElem? hget
      refine Attempt.passes_succeed ⟨fun h ↦ .inr ⟨column, hmem, h⟩, ?_⟩
      rintro (hvalue | ⟨other, hother, h⟩)
      · cases (hindex value hvalue).symm.trans hoffset
      · exact huniform other hother column hmem h
    · exact Attempt.passes_fail _
  · exact Attempt.passes_fail _
  · exact Attempt.passes_fail _

end Scene

/-! ### Expressions -/

namespace Expr

variable {scene : Scene} {P : Column → Prop} {marked : Failure → Prop}

/-- The value of an operation is a scalar. -/
theorem exists_scalar_of_operation {op : Operator} {args : List Expr} {value : Value}
    (h : ((operation op args).attempt scene).result = .ok value) :
    ∃ column, value = .scalar column := by
  by_cases haccepts : op.arity.accepts args.length
  · by_cases hop : op = .component
    · subst hop
      obtain ⟨vector, index, rfl⟩ := exists_pair_of_accepts haccepts
      simp only [attempt_component, Attempt.result_andThen, bind_eq_ok_iff] at h
      obtain ⟨-, -, components, -, position, -, hchosen⟩ := h
      unfold Scene.component at hchosen
      split at hchosen
      · cases hchosen
      · cases hchosen
      · split at hchosen <;> cases hchosen
        exact ⟨_, rfl⟩
    · simp only [attempt_applied _ hop haccepts, Attempt.result_andThen, bind_eq_ok_iff] at h
      obtain ⟨-, -, column, -, hvalue⟩ := h
      cases hvalue
      exact ⟨column, rfl⟩
  · rw [attempt_refused _ haccepts] at h
    cases h

/-- A value that is a vector is what a symbol is bound to. -/
theorem find?_of_attempt_eq_vector {e : Expr} {name : String} {components : List Column}
    (h : (e.attempt scene).result = .ok (.vector name components)) :
    scene.env.find? name = some (.vector components) := by
  rcases e with (value | value) | other | ⟨op, args⟩
  · cases h
  · cases h
  · rw [attempt, Scene.lookup] at h
    split at h
    · cases h
    · cases h
    · split at h <;> cases h
    · next hfind =>
      split at h <;> cases h
      exact hfind
  · obtain ⟨column, hscalar⟩ := exists_scalar_of_operation h
    cases hscalar

/-- Some column of the arguments has it if some symbol in the arguments has. -/
theorem attemptColumns_passes (op : Operator) {args : List Expr}
    (h : ∀ arg ∈ args, (arg.attempt scene).Passes marked
      (∃ symbol ∈ arg.mentions, scene.env.Has P symbol) (Value.Has P)) :
    (attemptColumns scene op args).Passes marked
      (∃ symbol ∈ mentionsList args, scene.env.Has P symbol)
      fun columns ↦ ∃ column ∈ columns, P column := by
  induction args with
  | nil => exact Attempt.passes_succeed (by simp [mentionsList])
  | cons arg args ih =>
    have hmentions : (∃ symbol ∈ mentionsList (arg :: args), scene.env.Has P symbol) ↔
        (∃ symbol ∈ arg.mentions, scene.env.Has P symbol) ∨
          ∃ symbol ∈ mentionsList args, scene.env.Has P symbol := by
      simp only [mentionsList, List.mem_append, or_and_right, exists_or]
    rw [attemptColumns_cons]
    refine ((h arg List.mem_cons_self).andThen fun value _ ↦ ?_).congr hmentions.symm
    refine (Scene.expand_passes op arg value).andThen fun columns _ ↦ ?_
    refine Attempt.Passes.congr ?_ or_comm
    refine (ih fun next hnext ↦ h next (List.mem_cons_of_mem _ hnext)).andThen fun rest _ ↦ ?_
    refine Attempt.passes_succeed ?_
    simp only [List.mem_append, or_and_right, exists_or]
    exact or_comm

/-- The value of an expression has the property exactly if what a mentioned symbol is bound to has
it, or a marked failure brought it in. -/
theorem attempt_passes (h : scene.Inherits P marked) {e : Expr}
    (hliterals : ∀ value, number value ∈ e.nodes → ¬P (.constant value)) :
    (e.attempt scene).Passes marked (∃ symbol ∈ e.mentions, scene.env.Has P symbol)
      (Value.Has P) := by
  induction e using attempt_induction with
  | number value =>
    refine Attempt.passes_succeed (iff_of_false ?_ (by simp [mentions]))
    exact hliterals value (self_mem_nodes _)
  | bool value => exact Attempt.passes_fail _
  | symbol name => exact (Scene.lookup_passes name).congr (by simp [mentions])
  | refused op args hrefused =>
    rw [attempt_refused _ hrefused]
    exact Attempt.passes_fail _
  | component vector index ihvector ihindex =>
    have hargs (arg : Expr) (harg : arg ∈ [vector, index]) (value : Float)
        (hvalue : number value ∈ arg.nodes) : ¬P (.constant value) :=
      hliterals value (mem_nodes_operation.mpr (.inr ⟨arg, harg, hvalue⟩))
    have hmentions : (∃ symbol ∈ (operation .component [vector, index]).mentions,
        scene.env.Has P symbol) ↔ (∃ symbol ∈ vector.mentions, scene.env.Has P symbol) ∨
          ∃ symbol ∈ index.mentions, scene.env.Has P symbol := by
      simp only [mentions, mentionsList, List.append_nil, List.mem_append, or_and_right, exists_or]
    rw [attempt_component]
    refine ((ihvector (hargs vector (by simp))).andThen fun value hvalue ↦ ?_).congr hmentions.symm
    refine (Scene.needVector_passes vector value).andThen fun components hcomponents ↦ ?_
    refine Attempt.Passes.congr ?_ or_comm
    refine (ihindex (hargs index (by simp))).andThen fun position _ ↦ ?_
    -- The vector is bound to a symbol, and its components are alike.
    cases value with
    | scalar column => cases hcomponents
    | vector name components =>
      cases hcomponents
      exact Scene.component_passes h.index (h.uniform name _ (find?_of_attempt_eq_vector hvalue))
        _ index position
  | applied op args hop haccepts ih =>
    have hargs (arg : Expr) (harg : arg ∈ args) := ih arg harg fun value hvalue ↦
      hliterals value (mem_nodes_operation.mpr (.inr ⟨arg, harg, hvalue⟩))
    rw [attempt_applied _ hop haccepts]
    refine (attemptColumns_passes op hargs).andThen_value fun columns _ ↦ ?_
    have happlied : (scene.applyRows (operation op args) op columns).Passes marked
        (∃ operand ∈ columns, P operand) P := h.applied _ op columns
    exact happlied.andThen_value fun column _ ↦ Attempt.passes_succeed Iff.rfl

theorem attemptColumn_passes (h : scene.Inherits P marked) {e : Expr}
    (hliterals : ∀ value, number value ∈ e.nodes → ¬P (.constant value)) :
    (e.attemptColumn scene).Passes marked (∃ symbol ∈ e.mentions, scene.env.Has P symbol) P := by
  rw [attemptColumn_eq]
  exact (attempt_passes h hliterals).andThen_value fun value _ ↦ Scene.needScalar_passes e value

end Expr

/-! ### Varying from sample to sample -/

/-- The column has a value for each sample, and not one for all. -/
def Column.IsSampled : Column → Prop
  | constant _ => False
  | samples _ => True

/-- Columns are not all constant exactly if one of them is sampled. -/
theorem constants?_eq_none_iff {columns : List Column} :
    constants? columns = none ↔ ∃ column ∈ columns, column.IsSampled := by
  induction columns with
  | nil => simp [constants?]
  | cons column columns ih =>
    cases column with
    | constant value => simp [constants?, ih, Column.IsSampled]
    | samples values => simp [constants?, Column.IsSampled]

/-- An operation on constant columns has a constant result, and any other a sampled one. -/
theorem Scene.inherits_isSampled {scene : Scene}
    (huniform : ∀ symbol components, scene.env.find? symbol = some (.vector components) →
      ∀ column ∈ components, column.IsSampled) :
    scene.Inherits Column.IsSampled fun _ ↦ False where
  applied node op columns column hcolumn := by
    simp only [and_false, exists_false, false_or]
    rw [← constants?_eq_none_iff]
    rcases hconstants : constants? columns with _ | args
    · rw [applyRows_of_samples hconstants] at hcolumn
      cases hcolumn
      exact iff_of_true trivial rfl
    · rw [applyRows_of_constants hconstants] at hcolumn
      cases hcolumn
      exact iff_of_false id (nomatch ·)
  uniform symbol components hfind _ _ other hother _ :=
    huniform symbol components hfind other hother
  index _ h := absurd h id

end Tradeoff
