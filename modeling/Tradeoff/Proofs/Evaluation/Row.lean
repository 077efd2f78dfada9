import Tradeoff.Proofs.Evaluation.Outcomes

/-!
# One row of an evaluation

Expressions are evaluated over all samples at once, but no sample has an influence on another. Here
`atRow i` stands for taking row `i`: of columns, bindings, tables and results it leaves the value
for sample `i` as the only one, and of failures those of sample `i`, which then is sample zero.
Constant columns stay constant, because they are evaluated in another way.

Taking a row commutes with every step of an evaluation, and so with the evaluation
(`Expr.attemptColumn_atRow`). The environment has to fit; then its lookups succeed for all samples
and for the single row alike.
-/

namespace Tradeoff

/-! ### Rows -/

/-- Row `index` of some values, as values for one sample. -/
def rowOf (index : Nat) (values : Array Float) : Array Float :=
  #[values[index]?.getD notANumber]

/-- Row `index` of a column. -/
def Column.atRow (index : Nat) : Column → Column
  | constant value => .constant value
  | samples values => .samples (rowOf index values)

/-- Row `index` of what a symbol stands for. -/
def Binding.atRow (index : Nat) : Binding → Binding
  | scalar column => .scalar (column.atRow index)
  | vector components => .vector (components.map (Column.atRow index))
  | flag value => .flag value

/-- Row `index` of a value. -/
def Value.atRow (index : Nat) : Value → Value
  | scalar column => .scalar (column.atRow index)
  | vector symbol components => .vector symbol (components.map (Column.atRow index))

/-- The failure as one of the only sample, if it is one of sample `index`. -/
def Failure.atRow? (index : Nat) (f : Failure) : Option Failure :=
  if f.sample = some index then some { f with sample := some 0 } else none

/-- The map with the images of the values. -/
def SymbolMap.mapValues {α β : Type} (g : α → β) (m : SymbolMap α) : SymbolMap β :=
  ⟨m.entries.map fun entry ↦ (entry.1, g entry.2), by
    rw [List.map_map]
    exact m.nodup⟩

/-- Row `index` of an environment. -/
def Environment.atRow (index : Nat) (env : Environment) : Environment :=
  ⟨1, env.bindings.mapValues (Binding.atRow index)⟩

/-- The same place over row `index`. -/
def Scene.atRow (index : Nat) (scene : Scene) : Scene := ⟨scene.env.atRow index, scene.field⟩

/-- An attempt with its failures at row `index` and the image of its value. -/
def Attempt.atRow {α β : Type} (index : Nat) (g : α → β) (a : Attempt Failure α) :
    Attempt Failure β :=
  ⟨a.notes.filterMap (Failure.atRow? index), a.result.map g⟩

variable {index : Nat}

namespace Attempt

variable {α β : Type} {g : α → β}

@[simp] theorem atRow_succeed (value : α) :
    (succeed value : Attempt Failure α).atRow index g = succeed (g value) := rfl

/-- Of an attempt that succeeds the failures of the sample are left. -/
theorem atRow_ok (notes : List Failure) (value : α) :
    atRow index g ⟨notes, .ok value⟩ =
      ⟨notes.filterMap (Failure.atRow? index), .ok (g value)⟩ := rfl

@[simp] theorem atRow_fail (error : EvalError) :
    (fail error : Attempt Failure α).atRow index g = fail error := rfl

/-- A row of two attempts in sequence is the row of the first and then the row of the second. -/
theorem atRow_andThen {γ δ : Type} {k : γ → δ} {a : Attempt Failure α}
    {next : α → Attempt Failure γ} {next' : β → Attempt Failure δ}
    (h : ∀ value, (next value).atRow index k = next' (g value)) :
    (a.andThen next).atRow index k = (a.atRow index g).andThen next' := by
  obtain ⟨notes, error | value⟩ := a
  · rfl
  · rw [andThen_ok, atRow_ok, andThen_ok, ← h value]
    simp [atRow]

end Attempt

/-- The only value of the row is the one for the sample. -/
theorem Column.get_atRow (column : Column) : (column.atRow index).get 0 = column.get index := by
  cases column <;> rfl

theorem SymbolMap.find?_mapValues {α β : Type} (g : α → β) (m : SymbolMap α) (symbol : String) :
    (m.mapValues g).find? symbol = (m.find? symbol).map g :=
  lookup_map (fun _ ↦ g) m.entries symbol

/-- Constant columns are constant in a row too, and no others are. -/
theorem constants?_map_atRow (columns : List Column) :
    constants? (columns.map (Column.atRow index)) = constants? columns := by
  induction columns with
  | nil => rfl
  | cons column columns ih =>
    cases column with
    | constant value => rw [List.map_cons, Column.atRow, constants?, constants?, ih]
    | samples values => rfl

/-! ### Steps -/

namespace Scene

variable {scene : Scene}

/-- If all other indices give nothing, only one is left. -/
theorem filterMap_range_eq {β : Type} {n : Nat} {f : Nat → Option β} (hindex : index < n)
    (hf : ∀ i, i ≠ index → f i = none) : (List.range n).filterMap f = (f index).toList := by
  induction n with
  | zero => exact absurd hindex (Nat.not_lt_zero _)
  | succ n ih =>
    rw [List.range_succ, List.filterMap_append]
    by_cases h : index = n
    · have hnone : (List.range n).filterMap f = [] :=
        List.filterMap_eq_nil_iff.mpr fun i hi ↦ hf i (by rw [List.mem_range] at hi; omega)
      rw [hnone, ← h]
      rw [List.filterMap_cons]
      cases f index <;> rfl
    · rw [ih (by omega)]
      simp [hf n fun heq ↦ h heq.symm]

/-- The failures of a row are those that its sample has. -/
theorem rowFailures_atRow (hindex : index < scene.env.rows) (node : Expr)
    (fault? : Nat → Option Fault) :
    (scene.rowFailures node fault?).filterMap (Failure.atRow? index) =
      (scene.atRow index).rowFailures node fun _ ↦ fault? index := by
  have hone : ((scene.atRow index).rowFailures node fun _ ↦ fault? index) =
      ((fault? index).map fun fault ↦ ⟨scene.field, node.text, some 0, fault⟩).toList := by
    show (List.range 1).filterMap _ = _
    cases fault? index <;> rfl
  rw [hone, rowFailures, List.filterMap_filterMap, filterMap_range_eq hindex]
  · cases fault? index <;> simp [Failure.atRow?]
  · intro i hi
    cases fault? i <;> simp [Failure.atRow?, hi]

/-- An operator gives one row the value and the failures of the sample. -/
theorem applyRows_atRow (hindex : index < scene.env.rows) (node : Expr) (op : Operator)
    (columns : List Column) :
    (scene.applyRows node op columns).atRow index (Column.atRow index) =
      (scene.atRow index).applyRows node op (columns.map (Column.atRow index)) := by
  have hconstants : constants? (columns.map (Column.atRow index)) = constants? columns :=
    constants?_map_atRow columns
  -- Columns of constants are evaluated once and not for each sample.
  rcases h : constants? columns with _ | args
  · have hget : (columns.map (Column.atRow index)).map (fun column ↦ column.get 0) =
        columns.map fun column ↦ column.get index := by
      simp [Column.get_atRow]
    rw [applyRows_of_samples h, applyRows_of_samples (hconstants.trans h), Attempt.atRow_ok,
      rowFailures_atRow hindex]
    congr 1
    · refine rowFailures_congr node fun sample hsample ↦ ?_
      obtain rfl : sample = 0 := Nat.lt_one_iff.mp hsample
      rw [hget]
    · have hrange : Array.range (scene.atRow index).env.rows = #[0] := Array.range_succ
      rw [Column.atRow, rowOf, Array.getElem?_map, Array.getElem?_range, if_pos hindex,
        Option.map_some, Option.getD_some, ← hget, hrange, List.map_toArray]
      rfl
  · rw [applyRows_of_constants h, applyRows_of_constants (hconstants.trans h), Attempt.atRow_ok,
      rowFailures_atRow hindex]
    rfl

/-- A row of a vector is a vector. -/
theorem needVector_atRow (node : Expr) (value : Value) :
    (scene.needVector node value).atRow index (List.map (Column.atRow index)) =
      (scene.atRow index).needVector node (value.atRow index) := by
  cases value <;> rfl

/-- A row of a number is a number. -/
theorem needScalar_atRow (node : Expr) (value : Value) :
    (scene.needScalar node value).atRow index (Column.atRow index) =
      (scene.atRow index).needScalar node (value.atRow index) := by
  cases value <;> rfl

/-- A vector stands for its components in one row too. -/
theorem expand_atRow (op : Operator) (node : Expr) (value : Value) :
    (scene.expand op node value).atRow index (List.map (Column.atRow index)) =
      (scene.atRow index).expand op node (value.atRow index) := by
  cases value with
  | scalar column => rfl
  | vector name components =>
    rw [Value.atRow, expand, expand]
    split <;> rfl

/-- A component is chosen by a constant index, which is the same in every row. -/
theorem component_atRow (node indexNode : Expr) (components : List Column) (position : Value) :
    (scene.component node indexNode components position).atRow index (Value.atRow index) =
      (scene.atRow index).component node indexNode (components.map (Column.atRow index))
        (position.atRow index) := by
  rcases position with (value | values) | ⟨name, columns⟩
  · have hchosen : ((offset? value).bind fun offset ↦
          (components.map (Column.atRow index))[offset]?) =
        ((offset? value).bind fun offset ↦ components[offset]?).map (Column.atRow index) := by
      cases offset? value <;> simp
    simp only [component, Value.atRow, Column.atRow, hchosen, List.length_map]
    cases (offset? value).bind fun offset ↦ components[offset]? <;> rfl
  · rfl
  · rfl

/-- Lookups in an environment that fits find columns of the right length, in one row as in all. -/
theorem lookup_atRow (hfits : scene.env.Fits) (symbol : String) :
    (scene.lookup symbol).atRow index (Value.atRow index) =
      (scene.atRow index).lookup symbol := by
  have hfind : (scene.atRow index).env.find? symbol =
      (scene.env.find? symbol).map (Binding.atRow index) := SymbolMap.find?_mapValues _ _ _
  -- In a row every column has the one value that it should have.
  have hrow (column : Column) :
      (scene.atRow index).misfit? symbol (column.atRow index) = none := by
    cases column <;> simp [Column.atRow, misfit?, rowOf, atRow, Environment.atRow]
  unfold lookup
  rw [hfind]
  rcases hbinding : scene.env.find? symbol with _ | (column | components | flag)
  · rfl
  · have hcolumn : scene.misfit? symbol column = none :=
      misfit?_eq_none_iff.mpr (hfits.of_find? hbinding)
    simp only [Option.map_some, Binding.atRow, hcolumn, hrow]
    rfl
  · have hcomponents : components.findSome? (scene.misfit? symbol) = none :=
      List.findSome?_eq_none_iff.mpr fun column hmem ↦
        misfit?_eq_none_iff.mpr (hfits.of_find? hbinding column hmem)
    have hrows : (components.map (Column.atRow index)).findSome?
        ((scene.atRow index).misfit? symbol) = none := by
      simp [hrow]
    simp only [Option.map_some, Binding.atRow, hcomponents, hrows]
    rfl
  · rfl

end Scene

/-! ### Expressions -/

namespace Expr

variable {scene : Scene}

/-- Arguments are evaluated for one row as for all. -/
theorem attemptColumns_atRow (op : Operator) {args : List Expr}
    (h : ∀ arg ∈ args, (arg.attempt scene).atRow index (Value.atRow index) =
      arg.attempt (scene.atRow index)) :
    (attemptColumns scene op args).atRow index (List.map (Column.atRow index)) =
      attemptColumns (scene.atRow index) op args := by
  induction args with
  | nil => rfl
  | cons arg args ih =>
    have hargs := ih fun arg hmem ↦ h arg (List.mem_cons_of_mem _ hmem)
    rw [attemptColumns_cons, attemptColumns_cons, ← h arg List.mem_cons_self]
    refine Attempt.atRow_andThen fun value ↦ ?_
    rw [← Scene.expand_atRow]
    refine Attempt.atRow_andThen fun columns ↦ ?_
    rw [← hargs]
    refine Attempt.atRow_andThen fun rest ↦ ?_
    simp

/-- The evaluation of an expression over one row is that row of its evaluation. -/
theorem attempt_atRow (hfits : scene.env.Fits) (hindex : index < scene.env.rows) (e : Expr) :
    (e.attempt scene).atRow index (Value.atRow index) = e.attempt (scene.atRow index) := by
  induction e using attempt_induction with
  | number value => rfl
  | bool value => rfl
  | symbol name => exact Scene.lookup_atRow hfits name
  | refused op args h =>
    rw [attempt_refused scene h, attempt_refused _ h]
    rfl
  | component vector position ihvector ihposition =>
    rw [attempt_component, attempt_component, ← ihvector]
    refine Attempt.atRow_andThen fun value ↦ ?_
    rw [← Scene.needVector_atRow]
    refine Attempt.atRow_andThen fun components ↦ ?_
    rw [← ihposition]
    exact Attempt.atRow_andThen fun value ↦ Scene.component_atRow _ _ _ value
  | applied op args hop h ih =>
    rw [attempt_applied scene hop h, attempt_applied _ hop h, ← attemptColumns_atRow op ih]
    refine Attempt.atRow_andThen fun columns ↦ ?_
    rw [← Scene.applyRows_atRow hindex]
    exact Attempt.atRow_andThen fun column ↦ rfl

theorem attemptColumn_atRow (hfits : scene.env.Fits) (hindex : index < scene.env.rows) (e : Expr) :
    (e.attemptColumn scene).atRow index (Column.atRow index) =
      e.attemptColumn (scene.atRow index) := by
  rw [attemptColumn_eq, attemptColumn_eq, ← attempt_atRow hfits hindex]
  exact Attempt.atRow_andThen fun value ↦ Scene.needScalar_atRow e value

end Expr

end Tradeoff
