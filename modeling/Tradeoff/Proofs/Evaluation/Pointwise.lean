import Tradeoff.Problem.Scalarization
import Tradeoff.Proofs.Decimal.Zeros
import Tradeoff.Proofs.Evaluation.Form
import Tradeoff.Proofs.Evaluation.NormalForms

/-!
# The value of an expression for one sample

An expression of numbers and scalar symbols, with as many arguments for each operator as it takes,
always has a column (`Expr.IsPlain.hasValues`), and the value of that column for a sample is
found from the values that the symbols have for the sample (`Expr.valueAt`). Sums, products and
maxima of such expressions have the values one expects: sums and products from left to right, and
for a maximum the greatest of the values.
-/

namespace Tradeoff

open Float.Model (UnpackedFloat)
open Float.Model.UnpackedFloat

namespace Expr

mutual

/-- The value of an expression for a sample, from the values of the symbols for the sample. -/
def valueAt (assign : String → Float) : Expr → Float
  | .literal (.number value) => value
  | .literal (.bool _) => notANumber
  | .symbol name => assign name
  | .operation op args => Scene.valueOf (op.apply (valuesAt assign args))

/-- The values of a list of expressions. -/
def valuesAt (assign : String → Float) : List Expr → List Float
  | [] => []
  | arg :: args => valueAt assign arg :: valuesAt assign args

end

/-- The expression has no truth values, picks no components and gives every operator as many
arguments as it takes. -/
inductive IsPlain : Expr → Prop where
  /-- A number. -/
  | number (value : Float) : IsPlain (.number value)
  /-- A symbol. -/
  | symbol (name : String) : IsPlain (.symbol name)
  /-- An operation. -/
  | operation {op : Operator} {args : List Expr} : op ≠ .component → op.arity.accepts args.length →
      (∀ arg ∈ args, IsPlain arg) → IsPlain (.operation op args)

section Values

variable (assign : String → Float)

theorem valuesAt_eq_map (args : List Expr) : valuesAt assign args = args.map (valueAt assign) := by
  induction args with
  | nil => rfl
  | cons arg args ih => rw [valuesAt, ih, List.map_cons]

theorem valueAt_number (value : Float) : (number value).valueAt assign = value := by
  rw [number, valueAt]

theorem valueAt_symbol (name : String) : (symbol name).valueAt assign = assign name := by
  rw [valueAt]

/-- The value of an operation is what its operator makes of the values of its arguments. -/
theorem valueAt_operation (op : Operator) (args : List Expr) :
    (operation op args).valueAt assign = Scene.valueOf (op.apply (args.map (valueAt assign))) := by
  rw [valueAt, valuesAt_eq_map]

/-- The value of a sum of two is the sum of their values. -/
theorem valueAt_add (a b : Expr) :
    (a.add b).valueAt assign = a.valueAt assign + b.valueAt assign := by
  rw [add, valueAt_operation, folds_add.valueOf_apply]
  show -0.0 + a.valueAt assign + b.valueAt assign = _
  rw [negZero_add]

/-- The value of a product of two is the product of their values. -/
theorem valueAt_multiply (a b : Expr) :
    (a.multiply b).valueAt assign = a.valueAt assign * b.valueAt assign := by
  rw [multiply, valueAt_operation, folds_multiply.valueOf_apply]
  show 1 * a.valueAt assign * b.valueAt assign = _
  rw [oneTimes]

end Values

/-! ### Columns -/

/-- Over the environment of the scene the expression has a column with these values. -/
def HasValues (scene : Scene) (values : Nat → Float) (e : Expr) : Prop :=
  ∃ column, (e.attempt scene).result = .ok (.scalar column) ∧
    ∀ sample < scene.env.rows, column.get sample = values sample

variable {scene : Scene}

/-- Arguments that have values have columns with these values. -/
theorem exists_columns {values : Nat → Expr → Float} (op : Operator) {args : List Expr}
    (h : ∀ arg ∈ args, arg.HasValues scene (values · arg)) :
    ∃ columns, (attemptColumns scene op args).result = .ok columns ∧
      ∀ sample < scene.env.rows, columns.map (·.get sample) = args.map (values sample) := by
  induction args with
  | nil =>
    refine ⟨[], ?_, fun _ _ ↦ rfl⟩
    rw [attemptColumns]
    rfl
  | cons arg args ih =>
    obtain ⟨⟨column, hattempt, hget⟩, hargs⟩ := List.forall_mem_cons.mp h
    obtain ⟨columns, hattempts, hgets⟩ := ih hargs
    refine ⟨column :: columns, ?_, fun sample hsample ↦ ?_⟩
    · rw [attemptColumns, Attempt.result_andThen, hattempt]
      show ((attemptColumns scene op args).andThen _).result = _
      rw [Attempt.result_andThen, hattempts]
      rfl
    · rw [List.map_cons, List.map_cons, hget sample hsample, hgets sample hsample]

/-- A plain expression has its values over an environment that binds its symbols to scalars. -/
theorem IsPlain.hasValues {e : Expr} (h : e.IsPlain) {columns : String → Column}
    (hbound : ∀ symbol ∈ e.mentions, scene.env.find? symbol = some (.scalar (columns symbol)) ∧
      (columns symbol).Fits scene.env.rows) :
    e.HasValues scene fun sample ↦ e.valueAt fun symbol ↦ (columns symbol).get sample := by
  induction h with
  | number value =>
    refine ⟨.constant value, ?_, fun sample _ ↦ (valueAt_number _ value).symm⟩
    rw [Expr.number, attempt]
    rfl
  | symbol name =>
    obtain ⟨hfind, hfits⟩ := hbound name (by simp [mentions])
    refine ⟨columns name, ?_, fun sample _ ↦ ?_⟩
    · rw [attempt, Scene.lookup_of_scalar hfind hfits]
      rfl
    · show _ = (Expr.symbol name).valueAt _
      rw [valueAt_symbol]
  | @operation op args hop haccepts _ ih =>
    obtain ⟨cs, hattempts, hgets⟩ := exists_columns op fun arg harg ↦
      ih arg harg fun symbol hsymbol ↦ hbound symbol (mem_mentionsList.mpr ⟨arg, harg, hsymbol⟩)
    obtain ⟨column, happly, hget⟩ := scene.exists_applyRows (.operation op args) op cs
    refine ⟨column, ?_, fun sample hsample ↦ ?_⟩
    · rw [attempt_applied scene hop haccepts, Attempt.result_andThen, hattempts]
      show ((scene.applyRows _ op cs).andThen _).result = _
      rw [happly]
      rfl
    · show _ = (Expr.operation op args).valueAt _
      rw [hget sample hsample, hgets sample hsample, valueAt_operation]

/-- If failures of samples are no errors, the values are returned. -/
theorem HasValues.exists_settle {e : Expr} {values : Nat → Float} (h : e.HasValues scene values) :
    ∃ column failures, Policy.perRow.settle (e.attemptColumn scene) = .ok (column, failures) ∧
      ∀ sample < scene.env.rows, column.get sample = values sample := by
  obtain ⟨column, hattempt, hget⟩ := h
  have hresult : (e.attemptColumn scene).result = .ok column := by
    rw [attemptColumn, Attempt.result_andThen, hattempt]
    rfl
  refine ⟨column, firstPerSample [] (e.attemptColumn scene).notes, ?_, hget⟩
  simp only [Policy.settle, hresult]

end Expr

/-! ### Sums -/

/-- The sum of numbers from left to right. One number is its own sum. -/
def leftSum : List Float → Float
  | [] => 0
  | value :: values => values.foldl (· + ·) value

namespace Expr

/-- An operator that takes two arguments makes a plain expression of two. -/
theorem isPlain_pair {op : Operator} {a b : Expr} (hop : op ≠ .component)
    (haccepts : op.arity.accepts 2) (ha : a.IsPlain) (hb : b.IsPlain) :
    (operation op [a, b]).IsPlain := by
  refine .operation hop haccepts ?_
  rw [List.forall_mem_cons, List.forall_mem_singleton]
  exact ⟨ha, hb⟩

/-- A sum of plain terms is plain. -/
theorem IsPlain.total {terms : List Expr} (hne : terms ≠ []) (h : ∀ term ∈ terms, term.IsPlain) :
    (total terms).IsPlain := by
  match terms with
  | [term] => exact h term List.mem_cons_self
  | first :: second :: rest =>
    exact .operation (by decide) (decide_eq_true (Nat.le_add_left 2 rest.length)) h

/-- The value of a sum is the sum of the values, from left to right. -/
theorem valueAt_total (assign : String → Float) {terms : List Expr} (hne : terms ≠ []) :
    (total terms).valueAt assign = leftSum (terms.map (valueAt assign)) := by
  match terms with
  | [term] => rfl
  | first :: second :: rest =>
    show (operation .add (first :: second :: rest)).valueAt assign = _
    rw [valueAt_operation, folds_add.valueOf_apply, List.map_cons, List.foldl_cons, negZero_add]
    rfl

/-- A sum mentions what its terms mention. -/
theorem mem_mentions_total {symbol : String} {terms : List Expr} :
    symbol ∈ (total terms).mentions ↔ ∃ term ∈ terms, symbol ∈ term.mentions := by
  match terms with
  | [] => exact mem_mentionsList
  | [term] => simp [total]
  | first :: second :: rest => exact mem_mentionsList

end Expr

/-! ### Maxima -/

/-- The number is one of the numbers and not less than any of them. -/
def IsMaximum (values : List Float) (m : Float) : Prop := m ∈ values ∧ ∀ value ∈ values, value ≤ m

theorem unpack_negInfinity : (-1 / 0 : Float).toModel.unpack = .infinity .negative := by rfl

/-- Nothing is less than negative infinity. -/
theorem placeOf_negInfinity_le (x : Float) : placeOf (-1 / 0) ≤ placeOf x := by
  rw [placeOf, placeOf, unpack_negInfinity]
  rcases hx : x.toModel.unpack with sign | _ | sign | ⟨sign, mantissa, exponent, hpos⟩
  · cases sign <;> decide
  · decide
  · cases sign <;> decide
  · have hbounds := (isCanonical_of_unpack hx).place_bounds hpos
    cases sign <;> simp only [place, Sign.apply] <;> omega

theorem le_of_not_lt {x y : Float} (hx : x.isNaN = false) (hy : y.isNaN = false) (h : ¬ x < y) :
    y ≤ x := by
  rw [lt_iff, not_and, not_and] at h
  exact le_iff.mpr ⟨hy, hx, Int.not_lt.mp (h hx hy)⟩

/-- A maximum that starts from negative infinity starts from the first number. -/
theorem greater_negInfinity {x : Float} (hx : x.isNaN = false) : greater (-1 / 0) x = x := by
  unfold greater
  split
  · rfl
  · next hlt =>
    have hinfinity : (-1 / 0 : Float).isNaN = false := by decide +kernel
    have hplace : placeOf (-1 / 0) = placeOf x :=
      Int.le_antisymm (placeOf_negInfinity_le x) (le_iff.mp (le_of_not_lt hinfinity hx hlt)).2.2
    rcases eq_or_isZero_of_beq (beq_iff.mpr ⟨hinfinity, hx, hplace⟩) with heq | ⟨⟨sign, hzero⟩, -⟩
    · exact heq
    · rw [unpack_negInfinity] at hzero
      cases hzero

/-- Going through numbers, the greater one is kept. -/
theorem isMaximum_foldl_greater {first : Float} {rest : List Float} (hfirst : first.isNaN = false)
    (hrest : ∀ value ∈ rest, value.isNaN = false) :
    IsMaximum (first :: rest) (rest.foldl greater first) := by
  induction rest generalizing first with
  | nil =>
    refine ⟨List.mem_cons_self, fun value hvalue ↦ ?_⟩
    obtain rfl := List.mem_singleton.mp hvalue
    exact le_iff.mpr ⟨hfirst, hfirst, Int.le_refl _⟩
  | cons second rest ih =>
    obtain ⟨hsecond, hrest⟩ := List.forall_mem_cons.mp hrest
    rw [List.foldl_cons]
    by_cases hlt : first < second
    · rw [show greater first second = second from if_pos hlt]
      obtain ⟨hmem, hle⟩ := ih hsecond hrest
      have hsecondLe := le_iff.mp (hle second List.mem_cons_self)
      refine ⟨List.mem_cons_of_mem _ hmem, List.forall_mem_cons.mpr ⟨?_, hle⟩⟩
      exact le_iff.mpr ⟨hfirst, hsecondLe.2.1,
        (Int.le_of_lt (lt_iff.mp hlt).2.2).trans hsecondLe.2.2⟩
    · rw [show greater first second = first from if_neg hlt]
      obtain ⟨hmem, hle⟩ := ih hfirst hrest
      obtain ⟨hfirstLe, hle⟩ := List.forall_mem_cons.mp hle
      have hsecondLe := le_iff.mp (le_of_not_lt hfirst hsecond hlt)
      refine ⟨?_, List.forall_mem_cons.mpr ⟨hfirstLe, List.forall_mem_cons.mpr ⟨?_, hle⟩⟩⟩
      · rcases List.mem_cons.mp hmem with heq | hmem
        · rw [heq]
          exact List.mem_cons_self
        · exact List.mem_cons_of_mem _ (List.mem_cons_of_mem _ hmem)
      · exact le_iff.mpr ⟨hsecond, (le_iff.mp hfirstLe).2.1,
          hsecondLe.2.2.trans (le_iff.mp hfirstLe).2.2⟩

/-- So the value of a maximum is the greatest of the values. -/
theorem isMaximum_valueOf_apply {values : List Float} (hne : values ≠ [])
    (h : ∀ value ∈ values, value.isNaN = false) :
    IsMaximum values (Scene.valueOf (Operator.max.apply values)) := by
  obtain ⟨first, rest, rfl⟩ := List.exists_cons_of_ne_nil hne
  obtain ⟨hfirst, hrest⟩ := List.forall_mem_cons.mp h
  have hmaximum := isMaximum_foldl_greater hfirst hrest
  have hnone : (first :: rest).any Float.isNaN = false :=
    List.any_eq_false.mpr fun value hvalue ↦ by
      rw [h value hvalue]
      decide
  have hvalue : Operator.max.value (first :: rest) = .ok (rest.foldl greater first) := by
    rw [Operator.value, List.foldl_cons, greater_negInfinity hfirst]
  have hresult : Operator.max.apply (first :: rest) = .ok (rest.foldl greater first) := by
    simp only [Operator.apply, hnone, hvalue, h _ hmaximum.1]
    rfl
  rw [hresult]
  exact hmaximum

end Tradeoff
