import Tradeoff.Evaluation.Expression

/-!
# Evaluation node by node

Equations for `Expr.attempt`, one for each kind of node, in which every use of a value is a step of
its own: `Scene.needVector`, `Scene.expand` and `Scene.needScalar` are the three places where a
value can have the wrong form. `Expr.attempt_induction` is the induction that goes with them. What
is proved about an evaluation is proved about these steps and put together by that induction.

`Attempt.Ends` says what holds of the result of an attempt, of its value or of its error.
-/

namespace Tradeoff

attribute [ext] Attempt

namespace Attempt

variable {ν α β : Type}

/-- `P` holds of the value, or `Q` of the error, in which an attempt ends. -/
def Ends (a : Attempt ν α) (P : α → Prop) (Q : EvalError → Prop) : Prop :=
  match a.result with
  | .ok value => P value
  | .error error => Q error

variable {P P' : α → Prop} {R : β → Prop} {Q Q' : EvalError → Prop} {a : Attempt ν α}

/-- A property of results can be replaced by a weaker one. -/
theorem Ends.imp (h : a.Ends P Q) (hvalue : ∀ value, P value → P' value)
    (herror : ∀ error, Q error → Q' error) : a.Ends P' Q' := by
  obtain ⟨notes, error | value⟩ := a
  · exact herror error h
  · exact hvalue value h

/-- The result of attempts in a row is a value of the last one or an error of one of them. -/
theorem Ends.andThen {next : α → Attempt ν β} (h : a.Ends P Q)
    (hnext : ∀ value, P value → (next value).Ends R Q) : (a.andThen next).Ends R Q := by
  obtain ⟨notes, error | value⟩ := a
  · exact h
  · exact hnext value h

theorem Ends.of_ok {value : α} (h : a.Ends P Q) (hvalue : a.result = .ok value) : P value := by
  rw [Ends, hvalue] at h
  exact h

theorem Ends.of_error {error : EvalError} (h : a.Ends P Q) (herror : a.result = .error error) :
    Q error := by
  rw [Ends, herror] at h
  exact h

/-- Two attempts are the same if they go on in the same way from the value they reach. -/
theorem andThen_congr {next next' : α → Attempt ν β}
    (h : ∀ value, a.result = .ok value → next value = next' value) :
    a.andThen next = a.andThen next' := by
  obtain ⟨notes, error | value⟩ := a
  · rfl
  · rw [andThen_ok, andThen_ok, h value rfl]

/-- Without the notes, an attempt is a computation in steps. -/
theorem result_andThen (a : Attempt ν α) (next : α → Attempt ν β) :
    (a.andThen next).result = a.result.bind fun value ↦ (next value).result := by
  obtain ⟨notes, error | value⟩ := a <;> rfl

end Attempt

/-! ### The uses of a value -/

namespace Scene

/-- The components of a value that has to be a vector. -/
def needVector (scene : Scene) (node : Expr) : Value → Attempt Failure (List Column)
  | .scalar _ => .fail (scene.structural node .notAVector)
  | .vector _ components => .succeed components

/-- The columns that an argument contributes to an operator. -/
def expand (scene : Scene) (op : Operator) (node : Expr) : Value → Attempt Failure (List Column)
  | .scalar column => .succeed [column]
  | .vector name components =>
    if op.expandsVectors then .succeed components
    else .fail (scene.structural node (.vectorInScalarContext name))

/-- The column of a value that has to be a scalar. -/
def needScalar (scene : Scene) (node : Expr) : Value → Attempt Failure Column
  | .scalar column => .succeed column
  | .vector name _ => .fail (scene.structural node (.vectorInScalarContext name))

/-! ### Steps without notes -/

section Notes

variable (scene : Scene)

/-- Looking up a symbol concerns no sample. -/
theorem notes_lookup (symbol : String) : (scene.lookup symbol).notes = [] := by
  unfold lookup
  split
  · rfl
  · rfl
  · split <;> rfl
  · split <;> rfl

theorem notes_needVector (node : Expr) (value : Value) :
    (scene.needVector node value).notes = [] := by
  cases value <;> rfl

theorem notes_needScalar (node : Expr) (value : Value) :
    (scene.needScalar node value).notes = [] := by
  cases value <;> rfl

theorem notes_expand (op : Operator) (node : Expr) (value : Value) :
    (scene.expand op node value).notes = [] := by
  cases value with
  | scalar column => rfl
  | vector name components =>
    rw [expand]
    split <;> rfl

/-- Taking a component concerns no sample either. -/
theorem notes_component (node indexNode : Expr) (components : List Column) (index : Value) :
    (scene.component node indexNode components index).notes = [] := by
  unfold component
  split
  · rfl
  · rfl
  · split <;> rfl

end Notes

/-! ### Operations on rows -/

/-- The fault of a sample, if it has one. -/
def faultOf? : Except Fault Float → Option Fault
  | .ok _ => none
  | .error fault => some fault

/-- The value of a sample; not a number if it has a fault. -/
def valueOf : Except Fault Float → Float
  | .ok value => value
  | .error _ => notANumber

/-- Failures of rows depend on the faults of the samples there are. -/
theorem rowFailures_congr {scene : Scene} {fault? fault?' : Nat → Option Fault} (node : Expr)
    (h : ∀ sample, sample < scene.env.rows → fault? sample = fault?' sample) :
    scene.rowFailures node fault? = scene.rowFailures node fault?' := by
  have hlist (samples : List Nat) (hsamples : ∀ sample ∈ samples, fault? sample = fault?' sample) :
      (samples.filterMap fun sample ↦ (fault? sample).map fun fault ↦
        (⟨scene.field, node.text, some sample, fault⟩ : Failure)) =
      samples.filterMap fun sample ↦ (fault?' sample).map fun fault ↦
        ⟨scene.field, node.text, some sample, fault⟩ := by
    induction samples with
    | nil => rfl
    | cons sample samples ih =>
      rw [List.filterMap_cons, List.filterMap_cons, hsamples sample List.mem_cons_self,
        ih fun s hs ↦ hsamples s (List.mem_cons_of_mem _ hs)]
  exact hlist _ fun sample hmem ↦ h sample (List.mem_range.mp hmem)

theorem rowFailures_none (scene : Scene) (node : Expr) :
    (scene.rowFailures node fun _ ↦ none) = [] :=
  List.filterMap_eq_nil_iff.mpr fun _ _ ↦ rfl

/-- An operation on constants alone has one outcome, for every sample. -/
theorem applyRows_of_constants {scene : Scene} {node : Expr} {op : Operator} {columns : List Column}
    {args : List Float} (h : constants? columns = some args) :
    scene.applyRows node op columns =
      ⟨scene.rowFailures node fun _ ↦ faultOf? (op.apply args),
        .ok (.constant (valueOf (op.apply args)))⟩ := by
  unfold applyRows
  rw [h]
  rcases hop : op.apply args with fault | value
  · simp only [hop, faultOf?, valueOf]
  · simp only [hop, faultOf?, valueOf, rowFailures_none]
    rfl

/-- Any other operation has an outcome for each sample, from the values for the sample. -/
theorem applyRows_of_samples {scene : Scene} {node : Expr} {op : Operator} {columns : List Column}
    (h : constants? columns = none) :
    scene.applyRows node op columns =
      ⟨scene.rowFailures node fun sample ↦
          faultOf? (op.apply (columns.map fun column ↦ column.get sample)),
        .ok (.samples ((Array.range scene.env.rows).map fun sample ↦
          valueOf (op.apply (columns.map fun column ↦ column.get sample))))⟩ := by
  unfold applyRows
  rw [h]
  simp only [Attempt.mk.injEq]
  refine ⟨rowFailures_congr node fun sample hsample ↦ ?_, ?_⟩
  · rw [Array.getElem?_map, Array.getElem?_range, if_pos hsample, Option.map_some]
    generalize op.apply _ = outcome
    cases outcome <;> rfl
  · rw [Array.map_map]
    rfl

end Scene

namespace Expr

variable (scene : Scene)

/-! ### Equations -/

/-- Operators refuse other numbers of arguments before any of them is evaluated. -/
theorem attempt_refused {op : Operator} {args : List Expr} (h : ¬op.arity.accepts args.length) :
    (operation op args).attempt scene =
      .fail (scene.structural (.operation op args) (.arity op args.length)) := by
  rw [attempt, if_neg h]
  rintro vector index rfl rfl
  exact h rfl

/-- A component is taken after the vector and the index are evaluated, in this order. -/
theorem attempt_component (vector index : Expr) :
    (operation .component [vector, index]).attempt scene =
      (vector.attempt scene).andThen fun value ↦
        (scene.needVector vector value).andThen fun components ↦
          (index.attempt scene).andThen
            (scene.component (operation .component [vector, index]) index components) := by
  have haccepts : Operator.component.arity.accepts [vector, index].length := rfl
  rw [attempt, if_pos haccepts]
  congr 1
  funext value
  cases value <;> simp [Scene.needVector]

/-- Any other operator is applied row by row, after its arguments are evaluated from left to right.
-/
theorem attempt_applied {op : Operator} {args : List Expr} (hop : op ≠ .component)
    (h : op.arity.accepts args.length) :
    (operation op args).attempt scene =
      (attemptColumns scene op args).andThen fun columns ↦
        (scene.applyRows (operation op args) op columns).andThen fun column ↦
          .succeed (.scalar column) := by
  rw [attempt, if_pos h]
  intro _ _ hcomponent _
  exact hop hcomponent

/-- The columns of arguments are those of the first one, followed by those of the others. -/
theorem attemptColumns_cons (op : Operator) (arg : Expr) (args : List Expr) :
    attemptColumns scene op (arg :: args) =
      (arg.attempt scene).andThen fun value ↦
        (scene.expand op arg value).andThen fun columns ↦
          (attemptColumns scene op args).andThen fun rest ↦ .succeed (columns ++ rest) := by
  rw [attemptColumns]
  congr 1
  funext value
  rcases value with column | ⟨name, components⟩
  · simp [Scene.expand]
  · simp only [Scene.expand]
    split <;> simp

/-- A field takes a number, not a vector. -/
theorem attemptColumn_eq (e : Expr) :
    e.attemptColumn scene = (e.attempt scene).andThen (scene.needScalar e) := rfl

/-! ### Induction -/

variable {scene}

/-- A component operator with an accepted number of arguments has two. -/
theorem exists_pair_of_accepts {args : List Expr}
    (h : Operator.component.arity.accepts args.length) :
    ∃ vector index, args = [vector, index] := by
  have hlength : args.length = 2 := by simpa [Operator.arity, Arity.accepts] using h
  match args, hlength with
  | [vector, index], _ => exact ⟨vector, index, rfl⟩

/-- Induction along the evaluation of an expression: an operation is refused for its number of
arguments, takes a component of a vector, or is applied to the columns of its arguments. -/
theorem attempt_induction {motive : Expr → Prop}
    (number : ∀ value, motive (literal (.number value)))
    (bool : ∀ value, motive (literal (.bool value)))
    (symbol : ∀ name, motive (symbol name))
    (refused : ∀ op args, ¬op.arity.accepts args.length → motive (operation op args))
    (component : ∀ vector index, motive vector → motive index →
      motive (operation .component [vector, index]))
    (applied : ∀ op args, op ≠ .component → op.arity.accepts args.length →
      (∀ arg ∈ args, motive arg) → motive (operation op args)) : ∀ e, motive e
  | .literal (.number value) => number value
  | .literal (.bool value) => bool value
  | .symbol name => symbol name
  | .operation op args => by
    have hargs : ∀ arg ∈ args, motive arg := fun arg _ ↦
      attempt_induction number bool symbol refused component applied arg
    by_cases haccepts : op.arity.accepts args.length
    · by_cases hop : op = .component
      · subst hop
        obtain ⟨vector, index, rfl⟩ := exists_pair_of_accepts haccepts
        exact component vector index (hargs vector (by simp)) (hargs index (by simp))
      · exact applied op args hop haccepts hargs
    · exact refused op args haccepts

end Expr

end Tradeoff
