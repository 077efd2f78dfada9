import Tradeoff.Proofs.Evaluation.WrittenOut

/-!
# The two kinds of faults

A fault that a sample can have is a division by zero or an argument outside of a domain. It is noted
with the sample, and the evaluation goes on. Any other fault ends the evaluation in an error for
which no sample is to blame (`Expr.attemptColumn_sorted`). An operator never finds itself with a
number of arguments that it does not take: they were counted before, and only an operator that takes
any number of columns can get more of them than it has arguments.
-/

namespace Tradeoff

/-! ### Faults of samples -/

/-- A fault that a sample can have. -/
def Fault.IsOfSample (fault : Fault) : Prop := fault = .divisionByZero ∨ ∃ op, fault = .domain op

theorem Fault.isPerSample_iff {fault : Fault} : fault.isPerSample ↔ fault.IsOfSample := by
  cases fault <;> simp [isPerSample, IsOfSample]

namespace Operator

variable {op : Operator} {args : List Float} {fault : Fault}

/-- An operator that gets as many arguments as it takes has no fault but those of samples. -/
theorem isOfSample_of_value (hop : op ≠ .component)
    (hargs : op.expandsVectors ∨ op.arity.accepts args.length)
    (h : op.value args = .error fault) : fault.IsOfSample := by
  cases op with
  | component => exact absurd rfl hop
  | add | sum | multiply | max | min => cases h
  | divide | power =>
    obtain ⟨a, b, rfl⟩ := List.length_eq_two.mp
      (by simpa [expandsVectors, arity, Arity.accepts] using hargs)
    rw [value] at h
    split at h
    · exact .inl (Except.error.inj h).symm
    · cases h
  | ln | log10 =>
    obtain ⟨a, rfl⟩ := List.length_eq_one_iff.mp
      (by simpa [expandsVectors, arity, Arity.accepts] using hargs)
    rw [value] at h
    split at h
    · exact .inr ⟨_, (Except.error.inj h).symm⟩
    · cases h
  | negate | abs | sqrt | square | exp | sin | cos | tan | arctan =>
    obtain ⟨a, rfl⟩ := List.length_eq_one_iff.mp
      (by simpa [expandsVectors, arity, Arity.accepts] using hargs)
    cases h

/-- With a number of arguments that it takes, an operator only has faults of samples. -/
theorem isOfSample_of_apply (hop : op ≠ .component)
    (hargs : op.expandsVectors ∨ op.arity.accepts args.length)
    (h : op.apply args = .error fault) : fault.IsOfSample := by
  unfold apply at h
  split at h
  · cases h
  · rcases hvalue : op.value args with fault' | value
    · rw [hvalue] at h
      cases h
      exact isOfSample_of_value hop hargs hvalue
    · rw [hvalue] at h
      dsimp only at h
      split at h
      · exact .inr ⟨op, (Except.error.inj h).symm⟩
      · cases h

end Operator

/-! ### Faults in their places -/

/-- If the error is a failure, no sample is to blame for it. -/
def EvalError.IsStructural (error : EvalError) : Prop :=
  ∀ f, error = .failure f → f.sample = none ∧ f.fault.isPerSample = false

/-- An attempt that notes faults of samples, and ends in a value with a property or in an error for
which no sample is to blame. -/
structure Attempt.Sorted {α : Type} (P : α → Prop) (a : Attempt Failure α) : Prop where
  /-- Faults of samples are noted. -/
  notes : a.Notes fun f ↦ f.fault.IsOfSample
  /-- Other faults end the attempt. -/
  ends : a.Ends P EvalError.IsStructural

namespace Attempt

variable {α β : Type} {P : α → Prop} {Q : β → Prop}

theorem sorted_succeed {value : α} (h : P value) : (succeed value).Sorted P :=
  ⟨notes_of_eq_nil rfl, h⟩

theorem sorted_fail {error : EvalError} (h : error.IsStructural) : (fail error).Sorted P :=
  ⟨notes_of_eq_nil rfl, h⟩

/-- A fault that is no sample's is a structural error. -/
theorem sorted_structural (scene : Scene) (node : Expr) {fault : Fault}
    (h : fault.isPerSample = false) : (fail (scene.structural node fault)).Sorted P := by
  refine sorted_fail fun f hf ↦ ?_
  cases hf
  exact ⟨rfl, h⟩

/-- Attempts in a row are sorted if each of them is. -/
theorem Sorted.andThen {a : Attempt Failure α} {next : α → Attempt Failure β} (h : a.Sorted P)
    (hnext : ∀ value, P value → (next value).Sorted Q) : (a.andThen next).Sorted Q := by
  obtain ⟨notes, error | value⟩ := a
  · exact ⟨h.notes, h.ends⟩
  · have hvalue := hnext value h.ends
    refine ⟨fun f hf ↦ ?_, hvalue.ends⟩
    exact (List.mem_append.mp hf).elim (h.notes f) (hvalue.notes f)

end Attempt

namespace Scene

variable (scene : Scene)

/-- A column that does not fit the samples is a structural error. -/
theorem isStructural_of_misfit? {symbol : String} {column : Column} {error : EvalError}
    (h : scene.misfit? symbol column = some error) : error.IsStructural := by
  cases column with
  | constant value => cases h
  | samples values =>
    rw [misfit?] at h
    split at h
    · cases h
    · cases h
      intro f hf
      cases hf

/-- Looking up a symbol notes nothing, and its errors are structural. -/
theorem lookup_sorted (symbol : String) : (scene.lookup symbol).Sorted fun _ ↦ True := by
  unfold lookup
  split
  · exact Attempt.sorted_fail fun f hf ↦ by cases hf
  · exact Attempt.sorted_structural scene _ rfl
  · split
    · next hmisfit => exact Attempt.sorted_fail (scene.isStructural_of_misfit? hmisfit)
    · exact Attempt.sorted_succeed trivial
  · split
    · next hmisfit =>
      obtain ⟨column, -, hcolumn⟩ := List.exists_of_findSome?_eq_some hmisfit
      exact Attempt.sorted_fail (scene.isStructural_of_misfit? hcolumn)
    · exact Attempt.sorted_succeed trivial

theorem needVector_sorted (node : Expr) (value : Value) :
    (scene.needVector node value).Sorted fun _ ↦ True := by
  cases value with
  | scalar column => exact Attempt.sorted_structural scene node rfl
  | vector symbol components => exact Attempt.sorted_succeed trivial

theorem needScalar_sorted (node : Expr) (value : Value) :
    (scene.needScalar node value).Sorted fun _ ↦ True := by
  cases value with
  | scalar column => exact Attempt.sorted_succeed trivial
  | vector symbol components => exact Attempt.sorted_structural scene node rfl

/-- An argument contributes one column to an operator that does not expand vectors. -/
theorem expand_sorted (op : Operator) (node : Expr) (value : Value) :
    (scene.expand op node value).Sorted fun columns ↦ op.expandsVectors ∨ columns.length = 1 := by
  cases value with
  | scalar column => exact Attempt.sorted_succeed (.inr rfl)
  | vector symbol components =>
    rw [expand]
    split
    · next hop => exact Attempt.sorted_succeed (.inl hop)
    · exact Attempt.sorted_structural scene node rfl

theorem component_sorted (node indexNode : Expr) (components : List Column) (index : Value) :
    (scene.component node indexNode components index).Sorted fun _ ↦ True := by
  unfold component
  split
  · exact Attempt.sorted_structural scene indexNode rfl
  · exact Attempt.sorted_structural scene indexNode rfl
  · split
    · exact Attempt.sorted_succeed trivial
    · exact Attempt.sorted_structural scene node rfl

theorem faultOf?_eq_some_iff {outcome : Except Fault Float} {fault : Fault} :
    faultOf? outcome = some fault ↔ outcome = .error fault := by
  cases outcome <;> simp [faultOf?]

/-- Applied row by row, an operator has faults of samples only, which are noted with them. -/
theorem applyRows_sorted (node : Expr) {op : Operator} {columns : List Column}
    (hop : op ≠ .component) (h : op.expandsVectors ∨ op.arity.accepts columns.length) :
    (scene.applyRows node op columns).Sorted fun _ ↦ True := by
  obtain ⟨column, heq, -⟩ := exists_applyRows scene node op columns
  rw [heq]
  refine ⟨fun f hf ↦ ?_, trivial⟩
  obtain ⟨sample, -, hsample⟩ := List.mem_filterMap.mp hf
  obtain ⟨fault, hfault, rfl⟩ := Option.map_eq_some_iff.mp hsample
  exact Operator.isOfSample_of_apply hop (by rwa [List.length_map]) (faultOf?_eq_some_iff.mp hfault)

end Scene

namespace Expr

variable {scene : Scene}

/-- An operator that takes vectors can get any number of columns. Any other gets one for each of its
arguments. -/
theorem attemptColumns_sorted (op : Operator) {args : List Expr}
    (h : ∀ arg ∈ args, (arg.attempt scene).Sorted fun _ ↦ True) :
    (attemptColumns scene op args).Sorted fun columns ↦
      op.expandsVectors ∨ columns.length = args.length := by
  induction args with
  | nil => exact Attempt.sorted_succeed (.inr rfl)
  | cons arg args ih =>
    have hargs := ih fun next hnext ↦ h next (List.mem_cons_of_mem _ hnext)
    rw [attemptColumns_cons]
    refine (h arg List.mem_cons_self).andThen fun value _ ↦ ?_
    refine (scene.expand_sorted op arg value).andThen fun columns hcolumns ↦ ?_
    refine hargs.andThen fun rest hrest ↦ Attempt.sorted_succeed ?_
    rcases hcolumns with hop | hcolumns
    · exact .inl hop
    · exact hrest.imp id fun hrest ↦ by simp [hcolumns, hrest, Nat.add_comm]

/-- The faults in an expression are sorted, node by node. -/
theorem attempt_sorted (e : Expr) : (e.attempt scene).Sorted fun _ ↦ True := by
  induction e using attempt_induction with
  | number value => exact Attempt.sorted_succeed trivial
  | bool value => exact Attempt.sorted_structural scene _ rfl
  | symbol name => exact scene.lookup_sorted name
  | refused op args h =>
    rw [attempt_refused _ h]
    exact Attempt.sorted_structural scene _ rfl
  | component vector index ihvector ihindex =>
    rw [attempt_component]
    refine ihvector.andThen fun value _ ↦ ?_
    refine (scene.needVector_sorted vector value).andThen fun components _ ↦ ?_
    exact ihindex.andThen fun position _ ↦ scene.component_sorted _ index components position
  | applied op args hop h ih =>
    rw [attempt_applied _ hop h]
    refine (attemptColumns_sorted op ih).andThen fun columns hcolumns ↦ ?_
    have haccepts := hcolumns.imp id fun hlength ↦ hlength ▸ h
    exact (scene.applyRows_sorted _ hop haccepts).andThen fun column _ ↦
      Attempt.sorted_succeed trivial

theorem attemptColumn_sorted (scene : Scene) (e : Expr) :
    (e.attemptColumn scene).Sorted fun _ ↦ True := by
  rw [attemptColumn_eq]
  exact e.attempt_sorted.andThen fun value _ ↦ scene.needScalar_sorted e value

end Expr

end Tradeoff
