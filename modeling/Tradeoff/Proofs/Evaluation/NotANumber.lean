import Tradeoff.Proofs.Decimal.Order
import Tradeoff.Proofs.Evaluation.Inheritance

/-!
# Values that are not numbers

Where an expression has no value for a sample, the double in its place is not a number. What an
operator gives is not a number if an argument is none already or the operator has a fault of its own
(`Operator.isNaN_apply`). So the property passes through whole expressions
(`Scene.inherits_isNaNAt`): the column of an expression has it at a sample exactly if a failure of
the sample is reported or a symbol in the expression is bound to a column that has it there
(`Expr.isNaNAt_of_settle`).

All failures of an expression are of samples that there are (`Expr.attemptColumn_places`), and no
two that are reported are of the same one (`nodup_firstPerSample`).
-/

namespace Tradeoff

variable {α β : Type}

/-! ### Operators -/

theorem isNaN_notANumber : notANumber.isNaN := by decide +kernel

/-- An index that is not a number names no component. -/
theorem offset?_of_isNaN {index : Float} (h : index.isNaN) : offset? index = none := by
  have hle : ¬1 ≤ index := not_le_of_isNaN h
  simp [offset?, hle]

/-- What an operator gives for a sample is not a number if it has a fault there or an argument is
none already. -/
theorem Operator.isNaN_apply (op : Operator) (args : List Float) :
    (Scene.valueOf (op.apply args)).isNaN ↔
      (Scene.faultOf? (op.apply args)).isSome ∨ ∃ arg ∈ args, arg.isNaN := by
  unfold apply
  by_cases hargs : args.any Float.isNaN
  · rw [if_pos hargs]
    exact iff_of_true isNaN_notANumber (.inr (List.any_eq_true.mp hargs))
  · have hnone : ¬∃ arg ∈ args, arg.isNaN := fun h ↦ hargs (List.any_eq_true.mpr h)
    rw [if_neg hargs]
    rcases op.value args with fault | value
    · exact iff_of_true isNaN_notANumber (.inl rfl)
    · dsimp only
      by_cases hvalue : value.isNaN
      · rw [if_pos hvalue]
        exact iff_of_true isNaN_notANumber (.inl rfl)
      · rw [if_neg hvalue]
        exact iff_of_false hvalue fun h ↦ h.elim (nomatch ·) hnone

/-! ### Columns -/

/-- The value of the column for the sample is not a number. -/
def Column.IsNaNAt (sample : Nat) (column : Column) : Prop := (column.get sample).isNaN

/-- Constant columns have the constants for their values. -/
theorem map_get_of_constants? {columns : List Column} {args : List Float}
    (h : constants? columns = some args) (sample : Nat) :
    columns.map (·.get sample) = args := by
  induction columns generalizing args with
  | nil =>
    cases h
    rfl
  | cons column columns ih =>
    cases column with
    | constant value =>
      rw [constants?, Option.map_eq_some_iff] at h
      obtain ⟨rest, hrest, rfl⟩ := h
      rw [List.map_cons, ih hrest]
      rfl
    | samples values => cases h

/-- A column that fits is written out by its values. -/
theorem Column.Fits.getElem?_broadcast {column : Column} {rows sample : Nat}
    (h : column.Fits rows) (hsample : sample < rows) :
    (column.broadcast rows)[sample]? = some (column.get sample) := by
  cases column with
  | constant value => simp [broadcast, get, hsample]
  | samples values =>
    have hsize : sample < values.size := lt_of_lt_of_eq hsample h.symm
    simp [broadcast, get, hsize]

namespace Scene

variable {scene : Scene} {sample : Nat}

/-- There is a failure for a sample exactly if it has a fault. -/
theorem exists_mem_rowFailures {node : Expr} {fault? : Nat → Option Fault} :
    (∃ f ∈ scene.rowFailures node fault?, f.sample = some sample) ↔
      sample < scene.env.rows ∧ (fault? sample).isSome := by
  simp only [rowFailures, List.mem_filterMap, List.mem_range, Option.map_eq_some_iff]
  constructor
  · rintro ⟨_, ⟨other, hother, fault, hfault, rfl⟩, hsample⟩
    cases hsample
    exact ⟨hother, by rw [hfault]; rfl⟩
  · rintro ⟨hsample, hsome⟩
    obtain ⟨fault, hfault⟩ := Option.isSome_iff_exists.mp hsome
    exact ⟨_, ⟨sample, hsample, fault, hfault, rfl⟩, rfl⟩

/-- An operation passes on what is not a number, and adds failures of the sample. -/
theorem inherits_isNaNAt (hsample : sample < scene.env.rows)
    (hvectors : ∀ symbol components, scene.env.find? symbol = some (.vector components) →
      ∀ column ∈ components, ¬column.IsNaNAt sample) :
    scene.Inherits (Column.IsNaNAt sample) (·.sample = some sample) where
  applied node op columns column hcolumn := by
    have hargs : (∃ operand ∈ columns, operand.IsNaNAt sample) ↔
        ∃ arg ∈ columns.map (·.get sample), arg.isNaN := by
      simp [Column.IsNaNAt]
    rw [hargs]
    rcases hconstants : constants? columns with _ | args
    · rw [applyRows_of_samples hconstants] at hcolumn ⊢
      cases hcolumn
      have hget : (Column.samples ((Array.range scene.env.rows).map fun sample ↦
          valueOf (op.apply (columns.map fun column ↦ column.get sample)))).get sample =
          valueOf (op.apply (columns.map (·.get sample))) := by
        simp [Column.get, hsample]
      rw [Column.IsNaNAt, hget, op.isNaN_apply, exists_mem_rowFailures, and_iff_right hsample]
    · rw [applyRows_of_constants hconstants] at hcolumn ⊢
      cases hcolumn
      rw [map_get_of_constants? hconstants, exists_mem_rowFailures, and_iff_right hsample]
      exact op.isNaN_apply args
  uniform symbol components hfind column hcolumn _ _ hisNaN :=
    absurd hisNaN (hvectors symbol components hfind column hcolumn)
  index _ hisNaN := offset?_of_isNaN hisNaN

/-! ### Failures of samples -/

/-- The failure is one that an expression can have in the scene: one of its field, of a sample. -/
def Places (scene : Scene) (f : Failure) : Prop :=
  f.field = scene.field ∧ ∃ sample < scene.env.rows, f.sample = some sample

/-- A failure of rows is of one of the samples, in the field. -/
theorem places_of_mem_rowFailures {node : Expr} {fault? : Nat → Option Fault} {f : Failure}
    (h : f ∈ scene.rowFailures node fault?) : scene.Places f := by
  obtain ⟨other, hother, heq⟩ := List.mem_filterMap.mp h
  obtain ⟨fault, -, rfl⟩ := Option.map_eq_some_iff.mp heq
  exact ⟨rfl, other, List.mem_range.mp hother, rfl⟩

end Scene

/-- All notes of an attempt have a property. -/
def Attempt.Notes (P : Failure → Prop) (a : Attempt Failure α) : Prop := ∀ f ∈ a.notes, P f

/-- Attempts in a row note what each of them notes. -/
theorem Attempt.Notes.andThen {P : Failure → Prop} {a : Attempt Failure α}
    {next : α → Attempt Failure β} (h : a.Notes P) (hnext : ∀ value, (next value).Notes P) :
    (a.andThen next).Notes P := by
  obtain ⟨notes, error | value⟩ := a
  · exact h
  · intro f hf
    exact (List.mem_append.mp hf).elim (h f) (hnext value f)

/-- Where nothing is noted, all notes have the property. -/
theorem Attempt.notes_of_eq_nil {P : Failure → Prop} {a : Attempt Failure α} (h : a.notes = []) :
    a.Notes P := by
  intro f hf
  rw [h] at hf
  exact absurd hf List.not_mem_nil

namespace Scene

variable (scene : Scene)

/-- An operator notes failures of the samples that there are. -/
theorem applyRows_places (node : Expr) (op : Operator) (columns : List Column) :
    (scene.applyRows node op columns).Notes scene.Places := by
  rcases hconstants : constants? columns with _ | args
  · rw [applyRows_of_samples hconstants]
    exact fun f hf ↦ places_of_mem_rowFailures hf
  · rw [applyRows_of_constants hconstants]
    exact fun f hf ↦ places_of_mem_rowFailures hf

end Scene

namespace Expr

variable {scene : Scene}

theorem attemptColumns_places (op : Operator) {args : List Expr}
    (h : ∀ arg ∈ args, (arg.attempt scene).Notes scene.Places) :
    (attemptColumns scene op args).Notes scene.Places := by
  induction args with
  | nil => exact Attempt.notes_of_eq_nil rfl
  | cons arg args ih =>
    have hargs := ih fun next hnext ↦ h next (List.mem_cons_of_mem _ hnext)
    rw [attemptColumns_cons]
    refine (h arg List.mem_cons_self).andThen fun value ↦ ?_
    refine (Attempt.notes_of_eq_nil (scene.notes_expand op arg value)).andThen fun columns ↦ ?_
    exact hargs.andThen fun rest ↦ Attempt.notes_of_eq_nil rfl

theorem attempt_places (e : Expr) : (e.attempt scene).Notes scene.Places := by
  induction e using attempt_induction with
  | number value => exact Attempt.notes_of_eq_nil rfl
  | bool value => exact Attempt.notes_of_eq_nil rfl
  | symbol name => exact Attempt.notes_of_eq_nil (scene.notes_lookup name)
  | refused op args h =>
    rw [attempt_refused _ h]
    exact Attempt.notes_of_eq_nil rfl
  | component vector index ihvector ihindex =>
    rw [attempt_component]
    refine ihvector.andThen fun value ↦ ?_
    refine (Attempt.notes_of_eq_nil (scene.notes_needVector vector value)).andThen
      fun components ↦ ihindex.andThen fun position ↦ ?_
    exact Attempt.notes_of_eq_nil (scene.notes_component _ index components position)
  | applied op args hop h ih =>
    rw [attempt_applied _ hop h]
    refine (attemptColumns_places op ih).andThen fun columns ↦ ?_
    exact (scene.applyRows_places _ op columns).andThen fun column ↦ Attempt.notes_of_eq_nil rfl

/-- The failures of an expression name its field and a sample. -/
theorem attemptColumn_places (scene : Scene) (e : Expr) :
    (e.attemptColumn scene).Notes scene.Places := by
  rw [attemptColumn_eq]
  exact e.attempt_places.andThen fun value ↦
    Attempt.notes_of_eq_nil (scene.notes_needScalar e value)

end Expr

/-! ### Reported failures -/

/-- The samples of the failures that are reported are those that were not seen before. -/
theorem exists_mem_firstPerSample {seen : List (Option Nat)} {failures : List Failure}
    {sample : Option Nat} : (∃ f ∈ firstPerSample seen failures, f.sample = sample) ↔
      sample ∉ seen ∧ ∃ f ∈ failures, f.sample = sample := by
  induction failures generalizing seen with
  | nil => simp [firstPerSample]
  | cons f failures ih =>
    by_cases hseen : f.sample ∈ seen
    · rw [firstPerSample, if_pos hseen, ih]
      simp only [List.mem_cons, exists_eq_or_imp]
      refine and_congr_right fun hsample ↦ (or_iff_right ?_).symm
      rintro rfl
      exact hsample hseen
    · rw [firstPerSample, if_neg hseen]
      simp only [List.mem_cons, exists_eq_or_imp, ih, not_or]
      by_cases hsample : f.sample = sample
      · subst hsample
        simp [hseen]
      · simp [hsample, Ne.symm hsample]

/-- No two reported failures are of the same sample. -/
theorem nodup_firstPerSample (seen : List (Option Nat)) (failures : List Failure) :
    ((firstPerSample seen failures).map Failure.sample).Nodup := by
  induction failures generalizing seen with
  | nil => exact List.nodup_nil
  | cons f failures ih =>
    rw [firstPerSample]
    split
    · exact ih seen
    · rw [List.map_cons, List.nodup_cons]
      refine ⟨fun hmem ↦ ?_, ih _⟩
      have hlater := exists_mem_firstPerSample.mp (List.mem_map.mp hmem)
      exact hlater.1 List.mem_cons_self

/-- The failures that are reported are among those that were noted. -/
theorem mem_of_mem_firstPerSample {seen : List (Option Nat)} {failures : List Failure}
    {f : Failure} (h : f ∈ firstPerSample seen failures) : f ∈ failures := by
  induction failures generalizing seen with
  | nil => exact h
  | cons g failures ih =>
    rw [firstPerSample] at h
    split at h
    · exact List.mem_cons_of_mem _ (ih h)
    · rcases List.mem_cons.mp h with rfl | h
      · exact List.mem_cons_self
      · exact List.mem_cons_of_mem _ (ih h)

/-- With failures confined, the value is that of the attempt and the first failure of each sample is
reported. -/
theorem Policy.settle_perRow_eq_ok {a : Attempt Failure α} {value : α} {failures : List Failure}
    (h : perRow.settle a = .ok (value, failures)) :
    a.result = .ok value ∧ failures = firstPerSample [] a.notes := by
  obtain ⟨notes, error | result⟩ := a
  · cases h
  · cases h
    exact ⟨rfl, rfl⟩

/-- What is reported under either policy was noted. -/
theorem Policy.mem_notes_of_settle {policy : Policy} {a : Attempt Failure α} {value : α}
    {failures : List Failure} (h : policy.settle a = .ok (value, failures)) {f : Failure}
    (hf : f ∈ failures) : f ∈ a.notes := by
  cases policy with
  | perRow =>
    obtain ⟨-, rfl⟩ := settle_perRow_eq_ok h
    exact mem_of_mem_firstPerSample hf
  | failFast =>
    obtain ⟨_ | ⟨g, notes⟩, error | result⟩ := a <;> cases h
    exact hf

/-- The value of an expression for a sample is not a number exactly if a failure of the sample is
reported or what a mentioned symbol is bound to is none there. -/
theorem Expr.isNaNAt_of_settle {scene : Scene} {e : Expr} {sample : Nat}
    (hsample : sample < scene.env.rows)
    (hvectors : ∀ symbol components, scene.env.find? symbol = some (.vector components) →
      ∀ column ∈ components, ¬column.IsNaNAt sample)
    (hliterals : ∀ value, number value ∈ e.nodes → ¬value.isNaN) {column : Column}
    {failures : List Failure}
    (h : Policy.perRow.settle (e.attemptColumn scene) = .ok (column, failures)) :
    column.IsNaNAt sample ↔ (∃ f ∈ failures, f.sample = some sample) ∨
      ∃ symbol ∈ e.mentions, scene.env.Has (Column.IsNaNAt sample) symbol := by
  obtain ⟨hresult, rfl⟩ := Policy.settle_perRow_eq_ok h
  have hpasses := attemptColumn_passes (Scene.inherits_isNaNAt hsample hvectors) hliterals
  rw [exists_mem_firstPerSample, and_iff_right List.not_mem_nil]
  exact hpasses column hresult

end Tradeoff
