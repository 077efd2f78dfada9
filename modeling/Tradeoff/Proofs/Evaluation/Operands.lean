import Tradeoff.Proofs.Evaluation.Form

/-!
# Operands

Arguments are counted before they are evaluated, and a vector is one argument, however many
components it has. What an operator is applied to are columns, and a vector that is expanded gives
as many of them as it has components (`Expr.operandCount`).

In an expression with values every operator is applied to a number of columns that it takes, with
one exception: a maximum, minimum or sum of nothing but vectors without components is applied to no
columns at all (`Expr.applies_of_evaluate`). It has a value all the same, because `Operator.value`
counts the columns of the other operators only.
-/

namespace Tradeoff

/-! ### Counting columns -/

/-- How many columns an argument stands for: a vector variable for its components, anything else
for one. -/
def Expr.operandCount (env : Environment) : Expr → Nat
  | .symbol name =>
    match env.find? name with
    | some (.vector components) => components.length
    | _ => 1
  | _ => 1

/-- The operator is applied to the columns of its arguments. It has as many arguments as it takes,
and is not the component operator, which is applied to no columns. -/
structure Scene.Applies (scene : Scene) (op : Operator) (args : List Expr)
    (columns : List Column) : Prop where
  ne_component : op ≠ .component
  accepts : op.arity.accepts args.length
  columns_eq : (Expr.attemptColumns scene op args).result = .ok columns

namespace Expr

variable {scene : Scene} {op : Operator} {args : List Expr} {columns : List Column}

theorem operandCount_eq_zero_iff {env : Environment} {arg : Expr} :
    arg.operandCount env = 0 ↔
      ∃ name, arg = .symbol name ∧ env.find? name = some (.vector []) := by
  cases arg with
  | symbol name =>
    simp only [operandCount, symbol.injEq, exists_eq_left']
    split
    · next hfind => simp [hfind]
    · next hfind => simpa using fun h ↦ hfind [] h
  | _ => simp [operandCount]

/-- A column for a scalar, and a column for each component of a vector. -/
theorem length_expand {arg : Expr} {value : Value} (hvalue : (arg.attempt scene).result = .ok value)
    (h : (scene.expand op arg value).result = .ok columns) :
    columns.length = arg.operandCount scene.env := by
  rcases arg with (number | flag) | name | ⟨inner, innerArgs⟩
  · cases hvalue
    cases h
    rfl
  · cases hvalue
  · rw [attempt, Scene.lookup] at hvalue
    rw [operandCount]
    split at hvalue
    · cases hvalue
    · cases hvalue
    · next hfind =>
      split at hvalue
      · cases hvalue
      · cases hvalue
        cases h
        rw [hfind]
        rfl
    · next hfind =>
      split at hvalue
      · cases hvalue
      · cases hvalue
        rw [Scene.expand] at h
        split at h
        · cases h
          rw [hfind]
        · cases h
  · obtain ⟨column, rfl⟩ := exists_scalar_of_operation hvalue
    cases h
    rfl

theorem attemptColumns_cons_eq_ok_iff {arg : Expr} :
    (attemptColumns scene op (arg :: args)).result = .ok columns ↔
      ∃ value first rest, (arg.attempt scene).result = .ok value ∧
        (scene.expand op arg value).result = .ok first ∧
        (attemptColumns scene op args).result = .ok rest ∧ columns = first ++ rest := by
  simp only [attemptColumns_cons, Attempt.result_andThen, bind_eq_ok_iff]
  constructor
  · rintro ⟨value, hvalue, first, hfirst, rest, hrest, hcolumns⟩
    cases hcolumns
    exact ⟨value, first, rest, hvalue, hfirst, hrest, rfl⟩
  · rintro ⟨value, first, rest, hvalue, hfirst, hrest, rfl⟩
    exact ⟨value, hvalue, first, hfirst, rest, hrest, rfl⟩

theorem length_of_attemptColumns (h : (attemptColumns scene op args).result = .ok columns) :
    columns.length = (args.map (operandCount scene.env)).sum := by
  induction args generalizing columns with
  | nil =>
    cases h
    rfl
  | cons arg args ih =>
    obtain ⟨value, first, rest, hvalue, hfirst, hrest, rfl⟩ := attemptColumns_cons_eq_ok_iff.mp h
    rw [List.length_append, length_expand hvalue hfirst, ih hrest, List.map_cons, List.sum_cons]

theorem exists_attempt_of_attemptColumns
    (h : (attemptColumns scene op args).result = .ok columns) :
    ∀ arg ∈ args, ∃ value, (arg.attempt scene).result = .ok value := by
  induction args generalizing columns with
  | nil => exact List.forall_mem_nil _
  | cons arg args ih =>
    obtain ⟨value, _, rest, hvalue, -, hrest, -⟩ := attemptColumns_cons_eq_ok_iff.mp h
    exact List.forall_mem_cons.mpr ⟨⟨value, hvalue⟩, ih hrest⟩

/-- An expression with a value has a value at every node. -/
theorem exists_attempt_of_mem_nodes {e node : Expr} {value : Value}
    (h : (e.attempt scene).result = .ok value) (hnode : node ∈ e.nodes) :
    ∃ value, (node.attempt scene).result = .ok value := by
  -- No argument is skipped: an operation with a value has evaluated all of them.
  induction e using attempt_induction generalizing value with
  | number _ | bool _ | symbol _ =>
    rw [nodes, List.mem_singleton] at hnode
    exact ⟨value, hnode ▸ h⟩
  | refused op args hrefused =>
    rw [attempt_refused _ hrefused] at h
    cases h
  | component vector index ihvector ihindex =>
    rcases mem_nodes_operation.mp hnode with rfl | ⟨arg, harg, hmem⟩
    · exact ⟨value, h⟩
    · simp only [attempt_component, Attempt.result_andThen, bind_eq_ok_iff] at h
      obtain ⟨vectorValue, hvector, _, -, indexValue, hindex, -⟩ := h
      rcases List.mem_pair.mp harg with rfl | rfl
      · exact ihvector hvector hmem
      · exact ihindex hindex hmem
  | applied op args hop haccepts ih =>
    rcases mem_nodes_operation.mp hnode with rfl | ⟨arg, harg, hmem⟩
    · exact ⟨value, h⟩
    · simp only [attempt_applied _ hop haccepts, Attempt.result_andThen, bind_eq_ok_iff] at h
      obtain ⟨columns, hcolumns, -⟩ := h
      obtain ⟨argValue, hvalue⟩ := exists_attempt_of_attemptColumns hcolumns arg harg
      exact ih arg harg hvalue hmem

/-- An operation with a value takes a component of a vector, or is applied to columns. -/
theorem exists_applies {value : Value}
    (h : ((operation op args).attempt scene).result = .ok value) :
    op.arity.accepts args.length ∧
      (op ≠ .component → ∃ columns, scene.Applies op args columns) := by
  by_cases haccepts : op.arity.accepts args.length
  · refine ⟨haccepts, fun hop ↦ ?_⟩
    simp only [attempt_applied _ hop haccepts, Attempt.result_andThen, bind_eq_ok_iff] at h
    obtain ⟨columns, hcolumns, -⟩ := h
    exact ⟨columns, hop, haccepts, hcolumns⟩
  · rw [attempt_refused _ haccepts] at h
    cases h

end Expr

/-! ### Operators and the columns they are applied to -/

namespace Scene.Applies

variable {scene : Scene} {op : Operator} {args : List Expr} {columns : List Column}

/-- The value of the operation is what the operator gives on the columns. -/
theorem result_attempt (h : scene.Applies op args columns) :
    ((Expr.operation op args).attempt scene).result =
      (scene.applyRows (.operation op args) op columns).result.map .scalar := by
  rw [Expr.attempt_applied _ h.ne_component h.accepts, Attempt.result_andThen, h.columns_eq]
  exact Attempt.result_andThen _ _

theorem length_eq (h : scene.Applies op args columns) :
    columns.length = (args.map (Expr.operandCount scene.env)).sum :=
  Expr.length_of_attemptColumns h.columns_eq

/-- Only an operator that expands vectors gets another number of columns than it has arguments. -/
theorem expands_or_length_eq (h : scene.Applies op args columns) :
    op.expandsVectors ∨ columns.length = args.length :=
  (Expr.attemptColumns_sorted op fun _ _ ↦ Expr.attempt_sorted _).ends.of_ok h.columns_eq

/-- The operator takes the number of columns, unless it expands vectors and there are only vectors
without components. -/
theorem accepts_length_iff (h : scene.Applies op args columns) :
    op.arity.accepts columns.length ↔
      ¬(op.expandsVectors ∧ ∀ arg ∈ args, arg.operandCount scene.env = 0) := by
  by_cases hop : op.expandsVectors
  -- Such an operator takes any number of columns except none.
  · have harity : op.arity = .atLeast 1 := by cases op <;> first | rfl | cases hop
    have hsum : columns.length = 0 ↔ ∀ arg ∈ args, arg.operandCount scene.env = 0 := by
      rw [h.length_eq, List.sum_eq_zero_iff, List.forall_mem_map]
    rw [harity, ← hsum]
    simp [Arity.accepts, hop, Nat.one_le_iff_ne_zero]
  · rw [h.expands_or_length_eq.resolve_left hop]
    exact iff_of_true h.accepts fun hboth ↦ hop hboth.1

end Scene.Applies

/-- In an expression with values every operator has as many arguments as it takes, and every
operator but the component operator is applied to the columns of its arguments, with a column for
each component of a vector, which gives the value of its node. It takes that number of columns,
unless it is a maximum, minimum or sum of vectors without components, which is applied to no
columns.
-/
theorem Expr.applies_of_evaluate {e : Expr} {env : Environment} {policy : Policy}
    {outcome : Array Float × List Failure} (h : e.evaluate env policy = .ok outcome) :
    e.TakesArity ∧ ∀ op args, .operation op args ∈ e.nodes → op ≠ .component →
      ∃ columns, Scene.Applies ⟨env, none⟩ op args columns ∧
        ((operation op args).attempt ⟨env, none⟩).result =
          (Scene.applyRows ⟨env, none⟩ (.operation op args) op columns).result.map .scalar ∧
        columns.length = (args.map (operandCount env)).sum ∧
        (op.arity.accepts columns.length ↔ ¬(op.expandsVectors ∧
          ∀ arg ∈ args, ∃ name, arg = .symbol name ∧ env.find? name = some (.vector []))) := by
  obtain ⟨values, failures⟩ := outcome
  obtain ⟨column, hsettle, -⟩ := evaluate_eq_ok_iff.mp h
  have hcolumn := Policy.settle_eq_ok hsettle
  rw [attemptColumn_eq, Attempt.result_andThen, bind_eq_ok_iff] at hcolumn
  obtain ⟨value, hvalue, -⟩ := hcolumn
  have hnodes {op args} (hnode : operation op args ∈ e.nodes) :=
    exists_attempt_of_mem_nodes hvalue hnode
  refine ⟨fun op args hnode ↦ ?_, fun op args hnode hop ↦ ?_⟩
  · obtain ⟨value, hvalue⟩ := hnodes hnode
    exact (exists_applies hvalue).1
  · obtain ⟨value, hvalue⟩ := hnodes hnode
    obtain ⟨columns, happlies⟩ := (exists_applies hvalue).2 hop
    refine ⟨columns, happlies, happlies.result_attempt, happlies.length_eq, ?_⟩
    simp only [happlies.accepts_length_iff, operandCount_eq_zero_iff]

/-- A sum of two vectors. -/
def Expr.sumOfVectors : Expr := .operation .sum [.symbol "v", .symbol "w"]

/-- One sample, with vectors for `v` and `w`, of which the second has no components. -/
def Environment.ofVector (components : List Column) : Environment :=
  (empty 1).bindAll [("v", .vector components), ("w", .vector [])]

/-- A vector without components beside one with two leaves an operator with two columns. -/
theorem Expr.sumOfVectors_applies :
    ∃ columns, Scene.Applies ⟨.ofVector [.constant 1, .samples #[2]], none⟩ .sum
      [.symbol "v", .symbol "w"] columns ∧ columns.length = 2 ∧
        Operator.sum.arity.accepts columns.length := by
  have hok : (sumOfVectors.evaluate (.ofVector [.constant 1, .samples #[2]]) .failFast).toOption =
      some (#[3], []) := by decide +kernel
  rcases hresult : sumOfVectors.evaluate (.ofVector [.constant 1, .samples #[2]]) .failFast with
    error | outcome
  · rw [hresult] at hok
    cases hok
  · obtain ⟨columns, happlies, -, hlength, haccepts⟩ :=
      (applies_of_evaluate hresult).2 .sum [.symbol "v", .symbol "w"] (self_mem_nodes _) (by decide)
    refine ⟨columns, happlies, hlength, haccepts.mpr ?_⟩
    rintro ⟨-, hempty⟩
    obtain ⟨name, hname, hfind⟩ := hempty (.symbol "v") List.mem_cons_self
    cases hname
    cases hfind

/-- The greatest component of a vector without components is negative infinity: the operator is
applied to no columns, which is a number of them that it does not take. -/
theorem Expr.max_applied_to_no_columns :
    ¬ ∀ e env policy outcome, evaluate e env policy = .ok outcome →
      ∀ op args, operation op args ∈ e.nodes → op ≠ .component →
        ∃ columns, Scene.Applies ⟨env, none⟩ op args columns ∧
          op.arity.accepts columns.length := by
  intro h
  have hvalue : (operation .max [.symbol "v"]).evaluate (.ofVector []) .failFast =
      .ok (#[-1 / 0], []) := rfl
  obtain ⟨columns, happlies, haccepts⟩ :=
    h _ _ _ _ hvalue .max [.symbol "v"] (self_mem_nodes _) (by decide)
  have hcolumns : columns.length = 0 := happlies.length_eq
  rw [hcolumns] at haccepts
  cases haccepts

end Tradeoff
