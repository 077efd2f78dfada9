import Tradeoff.Proofs.Evaluation.Operands

/-!
# Refused numbers of arguments

An operation is refused for its number of arguments before any of them is evaluated, so such an
error is about the arguments in the tree, and no sample is to blame for it
(`Expr.refuses_of_settle`). After that the number of columns is right for the operator on numbers:
the last case of `Operator.value` is never taken (`Expr.Calls.not_isArity`).
-/

namespace Tradeoff

/-- The fault is about a number of arguments. -/
def Fault.IsArity : Fault → Prop
  | arity _ _ => True
  | _ => False

/-- A fault of a sample is not about the number of arguments. -/
theorem Fault.IsOfSample.not_isArity {fault : Fault} (h : fault.IsOfSample) : ¬fault.IsArity := by
  rcases h with rfl | ⟨op, rfl⟩ <;> exact id

/-- The failure is the refusal of an operation among the nodes for its number of arguments. -/
structure Failure.Refuses (nodes : List Expr) (f : Failure) : Prop where
  sample_eq : f.sample = none
  exists_node : ∃ op args, .operation op args ∈ nodes ∧ f.node = (Expr.operation op args).text ∧
    f.fault = .arity op args.length ∧ ¬op.arity.accepts args.length

/-- If the error is about a number of arguments, it is the refusal of one of the nodes. -/
def EvalError.RefusesIn (nodes : List Expr) (error : EvalError) : Prop :=
  ∀ f, error = .failure f → f.fault.IsArity → f.Refuses nodes

/-- A node of a part is a node of the whole. -/
theorem EvalError.RefusesIn.mono {nodes nodes' : List Expr} {error : EvalError}
    (h : error.RefusesIn nodes) (hsub : nodes ⊆ nodes') : error.RefusesIn nodes' := by
  intro f hf hfault
  obtain ⟨hsample, op, args, hmem, hnode⟩ := h f hf hfault
  exact ⟨hsample, op, args, hsub hmem, hnode⟩

/-! ### Steps -/

namespace Scene

variable (scene : Scene) {nodes : List Expr}

/-- Errors about anything else than a number of arguments. -/
theorem fail_structural_refuses {α : Type} {P : α → Prop} (node : Expr) {fault : Fault}
    (h : ¬fault.IsArity) :
    (Attempt.fail (scene.structural node fault) : Attempt Failure α).Ends P
      (EvalError.RefusesIn nodes) := by
  intro f hf hfault
  cases hf
  exact absurd hfault h

/-- Looking up a symbol refuses nothing. -/
theorem lookup_refuses (symbol : String) :
    (scene.lookup symbol).Ends (fun _ ↦ True) (EvalError.RefusesIn nodes) := by
  have hmisfit {column : Column} {error : EvalError}
      (h : scene.misfit? symbol column = some error) : error.RefusesIn nodes := by
    intro f hf
    subst hf
    cases column with
    | constant value => cases h
    | samples values =>
      rw [misfit?] at h
      split at h <;> cases h
  unfold lookup
  split
  · intro f hf
    cases hf
  · exact scene.fail_structural_refuses _ id
  · split
    · next h => exact hmisfit h
    · trivial
  · split
    · next h =>
      obtain ⟨column, -, hcolumn⟩ := List.exists_of_findSome?_eq_some h
      exact hmisfit hcolumn
    · trivial

theorem needVector_refuses (node : Expr) (value : Value) :
    (scene.needVector node value).Ends (fun _ ↦ True) (EvalError.RefusesIn nodes) := by
  cases value with
  | scalar column => exact scene.fail_structural_refuses node id
  | vector symbol components => trivial

theorem needScalar_refuses (node : Expr) (value : Value) :
    (scene.needScalar node value).Ends (fun _ ↦ True) (EvalError.RefusesIn nodes) := by
  cases value with
  | scalar column => trivial
  | vector symbol components => exact scene.fail_structural_refuses node id

theorem expand_refuses (op : Operator) (node : Expr) (value : Value) :
    (scene.expand op node value).Ends (fun _ ↦ True) (EvalError.RefusesIn nodes) := by
  cases value with
  | scalar column => trivial
  | vector symbol components =>
    rw [expand]
    split
    · trivial
    · exact scene.fail_structural_refuses node id

theorem component_refuses (node indexNode : Expr) (components : List Column) (index : Value) :
    (scene.component node indexNode components index).Ends (fun _ ↦ True)
      (EvalError.RefusesIn nodes) := by
  unfold component
  split
  · exact scene.fail_structural_refuses indexNode id
  · exact scene.fail_structural_refuses indexNode id
  · split
    · trivial
    · exact scene.fail_structural_refuses node id

theorem applyRows_refuses (node : Expr) (op : Operator) (columns : List Column) :
    (scene.applyRows node op columns).Ends (fun _ ↦ True) (EvalError.RefusesIn nodes) := by
  obtain ⟨column, heq, -⟩ := exists_applyRows scene node op columns
  rw [heq]
  trivial

end Scene

/-! ### Expressions -/

namespace Expr

variable {scene : Scene}

/-- Arguments refuse what one of them refuses. -/
theorem attemptColumns_refuses (op : Operator) {args nodes : List Expr}
    (h : ∀ arg ∈ args, (arg.attempt scene).Ends (fun _ ↦ True) (EvalError.RefusesIn nodes)) :
    (attemptColumns scene op args).Ends (fun _ ↦ True) (EvalError.RefusesIn nodes) := by
  induction args with
  | nil => trivial
  | cons arg args ih =>
    have hargs := ih fun next hnext ↦ h next (List.mem_cons_of_mem _ hnext)
    rw [attemptColumns_cons]
    refine (h arg List.mem_cons_self).andThen fun value _ ↦ ?_
    refine (scene.expand_refuses op arg value).andThen fun columns _ ↦ ?_
    exact hargs.andThen fun rest _ ↦ trivial

/-- By induction on the nodes: only an operation that does not take its arguments refuses them. -/
theorem attempt_refuses (e : Expr) :
    (e.attempt scene).Ends (fun _ ↦ True) (EvalError.RefusesIn e.nodes) := by
  have hargs {op : Operator} {args : List Expr} {arg : Expr} (harg : arg ∈ args)
      (h : (arg.attempt scene).Ends (fun _ ↦ True) (EvalError.RefusesIn arg.nodes)) :
      (arg.attempt scene).Ends (fun _ ↦ True) (EvalError.RefusesIn (operation op args).nodes) :=
    h.imp (fun _ ↦ id) fun error herror ↦ herror.mono fun node hnode ↦
      mem_nodes_operation.mpr (.inr ⟨arg, harg, hnode⟩)
  induction e using attempt_induction with
  | number value => trivial
  | bool value => exact scene.fail_structural_refuses _ id
  | symbol name => exact scene.lookup_refuses name
  | refused op args h =>
    -- This is the only place that makes a fault of a number of arguments.
    rw [attempt_refused _ h]
    intro f hf _
    cases hf
    exact ⟨rfl, op, args, self_mem_nodes _, rfl, rfl, h⟩
  | component vector index ihvector ihindex =>
    rw [attempt_component]
    refine (hargs List.mem_cons_self ihvector).andThen fun value _ ↦ ?_
    refine (scene.needVector_refuses vector value).andThen fun components _ ↦ ?_
    exact (hargs (List.mem_cons_of_mem _ List.mem_cons_self) ihindex).andThen fun position _ ↦
      scene.component_refuses _ index components position
  | applied op args hop h ih =>
    rw [attempt_applied _ hop h]
    refine (attemptColumns_refuses op fun arg harg ↦ hargs harg (ih arg harg)).andThen
      fun columns _ ↦ ?_
    exact (scene.applyRows_refuses _ op columns).andThen fun column _ ↦ trivial

theorem attemptColumn_refuses (scene : Scene) (e : Expr) :
    (e.attemptColumn scene).Ends (fun _ ↦ True) (EvalError.RefusesIn e.nodes) := by
  rw [attemptColumn_eq]
  exact e.attempt_refuses.andThen fun value _ ↦ scene.needScalar_refuses e value

/-- A failure about a number of arguments is not one of a sample, so it ends the evaluation. -/
theorem refuses_of_isArity {e : Expr} {f : Failure} (h : f ∈ (e.attemptColumn scene).notes ∨
    (e.attemptColumn scene).result = .error (.failure f)) (hf : f.fault.IsArity) :
    f.Refuses e.nodes := by
  rcases h with hnoted | hresult
  · exact absurd hf ((e.attemptColumn_sorted scene).notes f hnoted).not_isArity
  · exact (e.attemptColumn_refuses scene).of_error hresult f rfl hf

end Expr

/-! ### The operator on numbers -/

/-- In the evaluation of the expression an operator is called with numbers: it is applied to columns
at a node, and these are their constants or their values for a sample. -/
inductive Expr.Calls (scene : Scene) (e : Expr) (op : Operator) : List Float → Prop where
  /-- The columns are constant. -/
  | constants {args : List Expr} {columns : List Column} {row : List Float} :
      .operation op args ∈ e.nodes → scene.Applies op args columns →
      constants? columns = some row → Calls scene e op row
  /-- A column has a value for each sample. -/
  | sample {args : List Expr} {columns : List Column} (sample : Nat) :
      .operation op args ∈ e.nodes → scene.Applies op args columns →
      constants? columns = none → sample < scene.env.rows →
      Calls scene e op (columns.map fun column ↦ column.get sample)

theorem length_of_constants? {columns : List Column} {row : List Float}
    (h : constants? columns = some row) : row.length = columns.length := by
  induction columns generalizing row with
  | nil =>
    cases h
    rfl
  | cons column columns ih =>
    cases column with
    | constant value =>
      obtain ⟨rest, hrest, rfl⟩ := Option.map_eq_some_iff.mp h
      rw [List.length_cons, List.length_cons, ih hrest]
    | samples values => cases h

/-- The numbers that an operator is called with are as many as the columns of the node. -/
theorem Expr.Calls.exists_applies {scene : Scene} {e : Expr} {op : Operator} {row : List Float}
    (h : e.Calls scene op row) :
    ∃ args columns, .operation op args ∈ e.nodes ∧ scene.Applies op args columns ∧
      row.length = columns.length := by
  cases h with
  | constants hnode happlies hrow => exact ⟨_, _, hnode, happlies, length_of_constants? hrow⟩
  | sample _ hnode happlies => exact ⟨_, _, hnode, happlies, List.length_map _⟩

/-- An operator is never called with a number of arguments that is left to the last case of
`Operator.value`. -/
theorem Expr.Calls.not_isArity {scene : Scene} {e : Expr} {op : Operator} {row : List Float}
    {fault : Fault} (h : e.Calls scene op row) (hfault : op.value row = .error fault) :
    ¬fault.IsArity := by
  obtain ⟨args, columns, -, happlies, hlength⟩ := h.exists_applies
  refine (Operator.isOfSample_of_value happlies.ne_component ?_ hfault).not_isArity
  exact happlies.expands_or_length_eq.imp id fun hcolumns ↦ by
    rw [hlength, hcolumns]
    exact happlies.accepts

end Tradeoff
