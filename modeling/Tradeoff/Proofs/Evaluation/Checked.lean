import Tradeoff.Proofs.Decimal.Whole
import Tradeoff.Proofs.Evaluation.NotANumber
import Tradeoff.Proofs.Evaluation.Refusals

/-!
# Checked steps

An evaluation looks up values in columns, takes components by their offsets and calls operators with
numbers. Looking beyond the end of a column gives something that is not a number, and zero has zero
for its predecessor, so a mistake in any of this would be masked. An expression is therefore
evaluated a second time by `Expr.checkedBy`, where such a look and such a predecessor have no result
and break off everything, where a component is taken with a proof that it exists, and where
operators are only known as far as a function `known?` says what they give.

Nothing is broken off: this is the same evaluation, provided that operators are known on the numbers
they are called with (`Expr.checkedBy_eq`). So they are called with no others, and `Expr.Calls` says
which numbers these are. Every column that an expression gives has a value for each sample, whatever
the lengths of the bound columns are (`Expr.attempt_ends`), and the whole part of an index from one
on is not zero (`toUInt64_pos`).
-/

namespace Tradeoff

/-! ### Checked steps -/

/-- The value for a sample. Columns of values have none beyond the last one. -/
def Column.get? : Column → Nat → Option Float
  | constant value, _ => some value
  | samples values, index => values[index]?

/-- The values of columns for a sample. -/
def rowAt? (columns : List Column) (sample : Nat) : Option (List Float) :=
  columns.mapM fun column ↦ column.get? sample

namespace Attempt

variable {ν α β : Type}

/-- An attempt and then another one on its value, where either of them may break off. -/
def andThen? (a : Option (Attempt ν α)) (next : α → Option (Attempt ν β)) :
    Option (Attempt ν β) :=
  a.bind fun a ↦
    match a.result with
    | .error error => some ⟨a.notes, .error error⟩
    | .ok value => (next value).map fun b ↦ ⟨a.notes ++ b.notes, b.result⟩

/-- A checked attempt goes on as the attempt does, if its continuations do. -/
theorem andThen?_some {a : Attempt ν α} {next : α → Attempt ν β}
    {next? : α → Option (Attempt ν β)}
    (h : ∀ value, a.result = .ok value → next? value = some (next value)) :
    andThen? (some a) next? = some (a.andThen next) := by
  obtain ⟨notes, error | value⟩ := a
  · rfl
  · show (next? value).map _ = _
    rw [h value rfl]
    rfl

end Attempt

namespace Scene

/-- An operator on columns. Each row is read from the columns, and a single one if all of them are
constant. -/
def applyRows? (known? : Operator → List Float → Option (Except Fault Float)) (scene : Scene)
    (node : Expr) (op : Operator) (columns : List Column) : Option (Attempt Failure Column) :=
  if (constants? columns).isSome then
    ((rowAt? columns 0).bind (known? op)).map fun outcome ↦
      ⟨scene.rowFailures node fun _ ↦ faultOf? outcome, .ok (.constant (valueOf outcome))⟩
  else
    ((List.range scene.env.rows).mapM fun sample ↦ (rowAt? columns sample).bind (known? op)).map
      fun outcomes ↦ ⟨scene.rowFailures node fun sample ↦ outcomes[sample]?.bind faultOf?,
        .ok (.samples (outcomes.map valueOf).toArray)⟩

/-- The component of a vector that an index names. From the whole part of the index one is
subtracted, which has no result at zero, and the component is taken only if the vector has it. -/
def component? (scene : Scene) (node indexNode : Expr) (components : List Column) :
    Value → Option (Attempt Failure Value)
  | .vector symbol _ => some (.fail (scene.structural indexNode (.vectorInScalarContext symbol)))
  | .scalar (.samples _) => some (.fail (scene.structural indexNode .nonNumeric))
  | .scalar (.constant index) =>
    let outOfRange := .fail (scene.structural node (.indexOutOfRange index components.length))
    if 1 ≤ index && index.toUInt64.toFloat == index then
      index.toUInt64.toNat.ppred.map fun offset ↦
        if h : offset < components.length then .succeed (.scalar components[offset])
        else outOfRange
    else some outOfRange

end Scene

namespace Expr

section Checked

variable (known? : Operator → List Float → Option (Except Fault Float))

mutual

/-- The value of an expression, evaluated by checked steps. -/
def checkedBy (scene : Scene) : Expr → Option (Attempt Failure Value)
  | .literal (.number value) => some (.succeed (.scalar (.constant value)))
  | .literal (.bool value) => some (.fail (scene.structural (.bool value) .nonNumeric))
  | .symbol name => some (scene.lookup name)
  | .operation op args =>
    if op.arity.accepts args.length then
      match op, args with
      | .component, [vector, index] =>
        Attempt.andThen? (checkedBy scene vector) fun value ↦
          Attempt.andThen? (some (scene.needVector vector value)) fun components ↦
            Attempt.andThen? (checkedBy scene index) fun position ↦
              scene.component? (.operation .component [vector, index]) index components position
      | op, args =>
        Attempt.andThen? (checkedColumnsBy scene op args) fun columns ↦
          Attempt.andThen? (scene.applyRows? known? (.operation op args) op columns) fun column ↦
            some (.succeed (.scalar column))
    else some (.fail (scene.structural (.operation op args) (.arity op args.length)))

/-- The columns that an operator takes from its arguments, evaluated by checked steps. -/
def checkedColumnsBy (scene : Scene) (op : Operator) : List Expr →
    Option (Attempt Failure (List Column))
  | [] => some (.succeed [])
  | arg :: args =>
    Attempt.andThen? (checkedBy scene arg) fun value ↦
      Attempt.andThen? (some (scene.expand op arg value)) fun columns ↦
        Attempt.andThen? (checkedColumnsBy scene op args) fun rest ↦
          some (.succeed (columns ++ rest))

end

/-- The column of a whole expression, evaluated by checked steps. -/
def checkedColumnBy (scene : Scene) (e : Expr) : Option (Attempt Failure Column) :=
  Attempt.andThen? (e.checkedBy known? scene) fun value ↦ some (scene.needScalar e value)

end Checked

/-- The column of a whole expression, evaluated by checked steps with the operators as they are. -/
def checkedColumn (scene : Scene) (e : Expr) : Option (Attempt Failure Column) :=
  e.checkedColumnBy (fun op row ↦ some (op.apply row)) scene

end Expr

/-! ### Nothing is broken off -/

/-- A column that fits has a value for each sample, and so the look is not beyond its end. -/
theorem Column.Fits.get?_eq {column : Column} {rows sample : Nat} (h : column.Fits rows)
    (hsample : sample < rows) : column.get? sample = some (column.get sample) := by
  cases column with
  | constant value => rfl
  | samples values =>
    have hlt : sample < values.size := hsample.trans_eq h.symm
    rw [get?, get, Array.getElem?_eq_getElem hlt]
    rfl

/-- So columns that fit have a row for each sample. -/
theorem rowAt?_of_fits {columns : List Column} {rows sample : Nat}
    (h : ∀ column ∈ columns, column.Fits rows) (hsample : sample < rows) :
    rowAt? columns sample = some (columns.map fun column ↦ column.get sample) :=
  mapM_eq_some_map fun column hcolumn ↦ (h column hcolumn).get?_eq hsample

/-- Constant columns have the same row everywhere. -/
theorem rowAt?_of_constants? {columns : List Column} {args : List Float}
    (h : constants? columns = some args) (sample : Nat) : rowAt? columns sample = some args := by
  induction columns generalizing args with
  | nil => exact h
  | cons column columns ih =>
    cases column with
    | samples values => cases h
    | constant value =>
      obtain ⟨rest, hrest, rfl⟩ := Option.map_eq_some_iff.mp h
      have htail : columns.mapM (fun column ↦ column.get? sample) = some rest := ih hrest
      rw [rowAt?, List.mapM_cons, htail]
      rfl

namespace Scene

variable (scene : Scene)

/-- An operator is applied as it is, if it is known on the constants or, for other columns, on the
row of each sample. -/
theorem applyRows?_eq {known? : Operator → List Float → Option (Except Fault Float)}
    {op : Operator} {columns : List Column} (hfits : ∀ column ∈ columns, column.Fits scene.env.rows)
    (hconstants : ∀ row, constants? columns = some row → known? op row = some (op.apply row))
    (hsamples : constants? columns = none → ∀ sample < scene.env.rows,
      known? op (columns.map (·.get sample)) = some (op.apply (columns.map (·.get sample))))
    (node : Expr) :
    scene.applyRows? known? node op columns = some (scene.applyRows node op columns) := by
  unfold applyRows?
  rcases hcolumns : constants? columns with _ | args
  · have houtcomes : ((List.range scene.env.rows).mapM fun sample ↦
        (rowAt? columns sample).bind (known? op)) =
          some ((List.range scene.env.rows).map fun sample ↦
            op.apply (columns.map (·.get sample))) := by
      refine mapM_eq_some_map fun sample hsample ↦ ?_
      have hlt := List.mem_range.mp hsample
      rw [rowAt?_of_fits hfits hlt, Option.bind_some, hsamples hcolumns sample hlt]
    rw [if_neg (by decide), houtcomes, applyRows_of_samples hcolumns, Option.map_some]
    congr 2
    · refine rowFailures_congr node fun sample hsample ↦ ?_
      rw [List.getElem?_map, List.getElem?_range hsample]
      rfl
    · rw [← List.map_toArray, ← List.map_toArray, List.toArray_range, Array.map_map]
      rfl
  · rw [if_pos Option.isSome_some, rowAt?_of_constants? hcolumns, Option.bind_some,
      hconstants args hcolumns, applyRows_of_constants hcolumns]
    rfl

/-- The index is at least one where it is made an offset, so that there is one. -/
theorem component?_eq (node indexNode : Expr) (components : List Column) (index : Value) :
    scene.component? node indexNode components index =
      some (scene.component node indexNode components index) := by
  rcases index with (index | values) | ⟨symbol, columns⟩
  · rw [component?, component, offset?]
    by_cases hguard : (1 ≤ index && index.toUInt64.toFloat == index) = true
    · have hpos := toUInt64_pos (of_decide_eq_true (Bool.and_eq_true_iff.mp hguard).1)
      obtain ⟨offset, hoffset⟩ := Nat.exists_eq_succ_of_ne_zero (Nat.ne_of_gt hpos)
      rw [if_pos hguard, if_pos hguard, hoffset, Nat.ppred_succ, Option.map_some]
      by_cases hlt : offset < components.length
      · simp [hlt]
      · simp [hlt]
    · rw [if_neg hguard, if_neg hguard]
      rfl
  · rfl
  · rfl

end Scene

namespace Expr

/-- What is called for an argument is called for the operation. -/
theorem Calls.of_mem {scene : Scene} {op op' : Operator} {args : List Expr} {arg : Expr}
    {row : List Float} (h : arg.Calls scene op row) (harg : arg ∈ args) :
    (operation op' args).Calls scene op row := by
  cases h with
  | constants hnode happlies hrow =>
    exact .constants (mem_nodes_operation.mpr (.inr ⟨arg, harg, hnode⟩)) happlies hrow
  | sample sample hnode happlies hcolumns hlt =>
    exact .sample sample (mem_nodes_operation.mpr (.inr ⟨arg, harg, hnode⟩)) happlies hcolumns hlt

variable {known? : Operator → List Float → Option (Except Fault Float)} (scene : Scene)

/-- The columns of arguments are those without checks. -/
theorem checkedColumnsBy_eq (op : Operator) {args : List Expr}
    (h : ∀ arg ∈ args, arg.checkedBy known? scene = some (arg.attempt scene)) :
    checkedColumnsBy known? scene op args = some (attemptColumns scene op args) := by
  induction args with
  | nil => rfl
  | cons arg args ih =>
    rw [checkedColumnsBy, attemptColumns_cons, h arg List.mem_cons_self,
      ih fun next hnext ↦ h next (List.mem_cons_of_mem _ hnext)]
    exact Attempt.andThen?_some fun value _ ↦ Attempt.andThen?_some fun columns _ ↦
      Attempt.andThen?_some fun rest _ ↦ rfl

/-- Checked steps are no other evaluation, and no more of the operators is used than what they give
for the numbers they are called with. -/
theorem checkedBy_eq (e : Expr)
    (h : ∀ op row, e.Calls scene op row → known? op row = some (op.apply row)) :
    e.checkedBy known? scene = some (e.attempt scene) := by
  induction e using attempt_induction with
  | number value | bool value | symbol name => rfl
  | refused op args hrefused =>
    rw [attempt_refused _ hrefused, checkedBy, if_neg hrefused]
    rintro vector index rfl rfl
    exact hrefused rfl
  | component vector index ihvector ihindex =>
    have haccepts : Operator.component.arity.accepts [vector, index].length := rfl
    rw [attempt_component, checkedBy, if_pos haccepts,
      ihvector fun op row hcall ↦ h op row (hcall.of_mem (by simp)),
      ihindex fun op row hcall ↦ h op row (hcall.of_mem (by simp))]
    exact Attempt.andThen?_some fun value _ ↦ Attempt.andThen?_some fun components _ ↦
      Attempt.andThen?_some fun position _ ↦ scene.component?_eq _ index components position
  | applied op args hop haccepts ih =>
    have hargs (arg : Expr) (harg : arg ∈ args) :
        arg.checkedBy known? scene = some (arg.attempt scene) :=
      ih arg harg fun op row hcall ↦ h op row (hcall.of_mem harg)
    rw [attempt_applied _ hop haccepts, checkedBy, if_pos haccepts,
      checkedColumnsBy_eq scene op hargs]
    · refine Attempt.andThen?_some fun columns hcolumns ↦ ?_
      -- Whatever the bindings are, the columns of the arguments fit.
      have hfits : ∀ column ∈ columns, column.Fits scene.env.rows :=
        (attemptColumns_ends op fun arg harg ↦
          (attempt_ends scene arg).imp (fun _ ↦ id) (Scene.CanEndIn.mono fun _ hsymbol ↦
            mem_mentionsList.mpr ⟨arg, harg, hsymbol⟩)).of_ok hcolumns
      have happlies : scene.Applies op args columns := ⟨hop, haccepts, hcolumns⟩
      rw [scene.applyRows?_eq hfits
        (fun row hrow ↦ h op row (.constants (self_mem_nodes _) happlies hrow))
        fun hnone sample hlt ↦ h op _ (.sample sample (self_mem_nodes _) happlies hnone hlt)]
      exact Attempt.andThen?_some fun column _ ↦ rfl
    · intro _ _ hcomponent _
      exact hop hcomponent

theorem checkedColumnBy_eq (e : Expr)
    (h : ∀ op row, e.Calls scene op row → known? op row = some (op.apply row)) :
    e.checkedColumnBy known? scene = some (e.attemptColumn scene) := by
  rw [checkedColumnBy, attemptColumn_eq, checkedBy_eq scene e h]
  exact Attempt.andThen?_some fun value _ ↦ rfl

theorem checkedColumn_eq (e : Expr) : e.checkedColumn scene = some (e.attemptColumn scene) :=
  checkedColumnBy_eq scene e fun _ _ _ ↦ rfl

end Expr

end Tradeoff
