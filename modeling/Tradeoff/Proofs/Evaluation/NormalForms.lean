import Tradeoff.Proofs.Decimal.Neutral
import Tradeoff.Proofs.Evaluation.NotANumber
import Tradeoff.Proofs.Formula.NormalForm

/-!
# Values of normal forms

An expression and its normal form have the same value. They differ in two ways. A sum at the start
of a sum is spliced into it, so that its value is not computed by itself and the additions go on
from there; what makes this harmless is that a sum starts from a neutral element
(`Operator.applyColumns_splice`). The same holds of products. And a negated number becomes the
number of the other sign.

Splicing removes nodes, and with them the places at which failures are recorded. So what is compared
is the outcome of an attempt (`Attempt.outcome`): its value, or its error up to the formula of the
node. Outcomes can be told node by node without the nodes; the result is
`Expr.Printable.outcome_normalize`.
-/

namespace Tradeoff

variable {α β : Type}

/-! ### Outcomes -/

/-- The error without the formula of the node at which it arose. -/
def EvalError.withoutNode : EvalError → EvalError
  | .failure f => .failure { f with node := "" }
  | error => error

/-- The value of an attempt, or its error without the node. -/
def Attempt.outcome (a : Attempt Failure α) : Except EvalError α :=
  a.result.mapError EvalError.withoutNode

namespace Attempt

theorem outcome_succeed (value : α) : (succeed value).outcome = .ok value := rfl

/-- The outcome of attempts in a row is that of doing one and then the other. -/
theorem outcome_andThen (a : Attempt Failure α) (next : α → Attempt Failure β) :
    (a.andThen next).outcome = a.outcome.bind fun value ↦ (next value).outcome := by
  obtain ⟨notes, error | value⟩ := a <;> rfl

/-- Attempts with the same outcome end in the same value, or in errors that differ in the node at
most. -/
theorem cases_of_outcome_eq {a b : Attempt Failure α} (h : a.outcome = b.outcome) :
    (∃ error error', a.result = .error error ∧ b.result = .error error' ∧
      error.withoutNode = error'.withoutNode) ∨
    ∃ value, a.result = .ok value ∧ b.result = .ok value := by
  obtain ⟨notes, error | value⟩ := a <;> obtain ⟨notes', error' | value'⟩ := b
  · exact .inl ⟨error, error', rfl, rfl, Except.error.inj h⟩
  · cases h
  · cases h
  · cases h
    exact .inr ⟨value, rfl, rfl⟩

end Attempt

/-! ### Operations on columns -/

/-- An operator applied to columns: once if they are all constant, and else for each sample. -/
def Operator.applyColumns (op : Operator) (rows : Nat) (columns : List Column) : Column :=
  match constants? columns with
  | some args => .constant (Scene.valueOf (op.apply args))
  | none => .samples ((Array.range rows).map fun sample ↦
      Scene.valueOf (op.apply (columns.map fun column ↦ column.get sample)))

namespace Scene

variable (scene : Scene) (op : Operator) (node node' : Expr)

/-! No outcome depends on the node. -/

/-- Applied row by row, an operator always has an outcome. -/
theorem outcome_applyRows (columns : List Column) :
    (scene.applyRows node op columns).outcome = .ok (op.applyColumns scene.env.rows columns) := by
  unfold Operator.applyColumns
  rcases hconstants : constants? columns with _ | args
  · rw [applyRows_of_samples hconstants]
    rfl
  · rw [applyRows_of_constants hconstants]
    rfl

/-- What a value stands for is the same in any node. -/
theorem outcome_expand (value : Value) :
    (scene.expand op node value).outcome = (scene.expand op node' value).outcome := by
  cases value with
  | scalar column => rfl
  | vector name components =>
    rw [expand, expand]
    split <;> rfl

/-- Whether it is a vector is the same in any node. -/
theorem outcome_needVector (value : Value) :
    (scene.needVector node value).outcome = (scene.needVector node' value).outcome := by
  cases value <;> rfl

/-- Whether it is a number is the same in any node. -/
theorem outcome_needScalar (value : Value) :
    (scene.needScalar node value).outcome = (scene.needScalar node' value).outcome := by
  cases value <;> rfl

theorem outcome_component (indexNode indexNode' : Expr) (components : List Column)
    (index : Value) : (scene.component node indexNode components index).outcome =
      (scene.component node' indexNode' components index).outcome := by
  unfold component
  split
  · rfl
  · rfl
  · split <;> rfl

end Scene

/-! ### Sums and products -/

/-- The operator combines its arguments one after another, starting from a double that changes
nothing. What is not a number is not one in the result either. -/
structure Operator.Folds (op : Operator) (f : Float → Float → Float) (start : Float) : Prop where
  value_eq : ∀ args, op.value args = .ok (args.foldl f start)
  neutral : ∀ x, f start x = x
  absorbing : ∀ {x y : Float}, x.isNaN ∨ y.isNaN → (f x y).isNaN

theorem folds_add : Operator.add.Folds (· + ·) (-0.0) := ⟨fun _ ↦ rfl, negZero_add, isNaN_add⟩

theorem folds_multiply : Operator.multiply.Folds (· * ·) 1 := ⟨fun _ ↦ rfl, oneTimes, isNaN_mul⟩

namespace Operator

variable {op : Operator}

/-- Both operators that are extended fold from a neutral element. -/
theorem exists_folds (hop : op = .add ∨ op = .multiply) : ∃ f start, op.Folds f start := by
  rcases hop with rfl | rfl
  · exact ⟨_, _, folds_add⟩
  · exact ⟨_, _, folds_multiply⟩

/-- Whatever the arguments are, the value is the combined arguments: if that is not a number, the
value is not one either. -/
theorem Folds.valueOf_apply {f : Float → Float → Float} {start : Float} (h : op.Folds f start)
    (args : List Float) : Scene.valueOf (op.apply args) = args.foldl f start := by
  unfold apply
  split
  · next hany =>
    have hisNaN : (args.foldl f start).isNaN :=
      isNaN_foldl h.absorbing (.inr (List.any_eq_true.mp hany))
    exact (eq_notANumber hisNaN).symm
  · simp only [h.value_eq]
    split
    · next hisNaN => exact (eq_notANumber hisNaN).symm
    · rfl

/-- A value can stand for the first arguments. -/
theorem Folds.valueOf_apply_append {f : Float → Float → Float} {start : Float}
    (h : op.Folds f start) (args more : List Float) :
    Scene.valueOf (op.apply (args ++ more)) =
      Scene.valueOf (op.apply (Scene.valueOf (op.apply args) :: more)) := by
  rw [h.valueOf_apply, h.valueOf_apply, h.valueOf_apply, List.foldl_append, List.foldl_cons,
    h.neutral]

/-- Columns are constant together if both parts are. -/
theorem constants?_append (columns more : List Column) :
    constants? (columns ++ more) =
      (constants? columns).bind fun args ↦ (constants? more).map (args ++ ·) := by
  induction columns with
  | nil => simp [constants?]
  | cons column columns ih =>
    cases column with
    | constant value =>
      rw [List.cons_append, constants?, constants?, ih]
      cases constants? columns <;> cases constants? more <;> rfl
    | samples values => rfl

/-- The value of an operator that is applied to columns, for one of the samples. -/
theorem get_applyColumns (op : Operator) {rows sample : Nat} (hsample : sample < rows)
    (columns : List Column) : (op.applyColumns rows columns).get sample =
      Scene.valueOf (op.apply (columns.map fun column ↦ column.get sample)) := by
  unfold applyColumns
  rcases hconstants : constants? columns with _ | args
  · simp [Column.get, hsample]
  · rw [map_get_of_constants? hconstants]
    rfl

/-- A column can stand for the first columns. It is a constant if they all are. -/
theorem applyColumns_splice (hop : op = .add ∨ op = .multiply) (rows : Nat)
    (columns more : List Column) :
    op.applyColumns rows (columns ++ more) =
      op.applyColumns rows (op.applyColumns rows columns :: more) := by
  obtain ⟨f, start, hfolds⟩ := exists_folds hop
  have hsamples : (Array.range rows).map (fun sample ↦
        Scene.valueOf (op.apply ((columns ++ more).map fun column ↦ column.get sample))) =
      (Array.range rows).map fun sample ↦
        Scene.valueOf (op.apply ((op.applyColumns rows columns :: more).map fun column ↦
          column.get sample)) := by
    refine Array.map_congr_left fun sample hmem ↦ ?_
    rw [List.map_append, hfolds.valueOf_apply_append, List.map_cons,
      op.get_applyColumns (Array.mem_range.mp hmem)]
  rw [applyColumns, applyColumns, hsamples, constants?_append]
  rcases hcolumns : constants? columns with _ | args
  · have hsampled : ∃ values, op.applyColumns rows columns = .samples values :=
      ⟨_, by rw [applyColumns, hcolumns]⟩
    obtain ⟨values, hvalues⟩ := hsampled
    rw [hvalues, constants?]
    rfl
  · have hconstant : op.applyColumns rows columns = .constant (Scene.valueOf (op.apply args)) := by
      rw [applyColumns, hcolumns]
    rw [hconstant, constants?]
    rcases constants? more with _ | others
    · rfl
    · exact congrArg Column.constant (hfolds.valueOf_apply_append args others)

/-- A finite number is negated without a failure. -/
theorem valueOf_apply_negate {value : Float} (h : value.isFinite) :
    Scene.valueOf (Operator.negate.apply [value]) = -value := by
  have hnot := (isNaN_isInf_of_isFinite h).1
  have hneg : (-value).isNaN = false := by rw [isNaN_neg, hnot]
  have hargs : [value].any Float.isNaN = false := by rw [List.any_cons, hnot, List.any_nil]; rfl
  simp only [apply, hargs, Operator.value, hneg]
  rfl

end Operator

/-! ### Outcomes node by node -/

namespace Expr

variable {scene : Scene} {op : Operator}

/-- Two expressions have the same outcome in a scene. -/
def SameOutcome (scene : Scene) (e e' : Expr) : Prop :=
  (e.attempt scene).outcome = (e'.attempt scene).outcome

/-- Arguments are evaluated one after the other. -/
theorem outcome_attemptColumns_cons (op : Operator) (arg : Expr) (args : List Expr) :
    (attemptColumns scene op (arg :: args)).outcome =
      (arg.attempt scene).outcome.bind fun value ↦
        (scene.expand op arg value).outcome.bind fun columns ↦
          (attemptColumns scene op args).outcome.bind fun rest ↦ .ok (columns ++ rest) := by
  simp only [attemptColumns_cons, Attempt.outcome_andThen, Attempt.outcome_succeed]

/-- The outcome of an operator on columns is that of the columns. -/
theorem outcome_applied (hop : op ≠ .component) {args : List Expr}
    (haccepts : op.arity.accepts args.length) :
    ((operation op args).attempt scene).outcome =
      (attemptColumns scene op args).outcome.bind fun columns ↦
        .ok (.scalar (op.applyColumns scene.env.rows columns)) := by
  simp only [attempt_applied _ hop haccepts, Attempt.outcome_andThen, Scene.outcome_applyRows,
    Attempt.outcome_succeed]
  rfl

/-! ### Other arguments -/

/-- Arguments with the same outcomes can be exchanged. -/
theorem outcome_attemptColumns_congr (op : Operator) {args args' : List Expr}
    (h : List.Forall₂ (SameOutcome scene) args args') :
    (attemptColumns scene op args).outcome = (attemptColumns scene op args').outcome := by
  induction h with
  | nil => rfl
  | @cons arg arg' args args' harg _ ih =>
    rw [outcome_attemptColumns_cons, outcome_attemptColumns_cons, harg, ih]
    simp only [scene.outcome_expand op arg arg']

/-- An operation has the same outcome on arguments that have. -/
theorem sameOutcome_operation (op : Operator) {args args' : List Expr}
    (h : List.Forall₂ (SameOutcome scene) args args') :
    SameOutcome scene (operation op args) (operation op args') := by
  have hlength := h.length_eq
  by_cases haccepts : op.arity.accepts args.length
  · have haccepts' : op.arity.accepts args'.length := hlength ▸ haccepts
    by_cases hop : op = .component
    · subst hop
      obtain ⟨vector, index, rfl⟩ := exists_pair_of_accepts haccepts
      obtain ⟨vector', index', rfl⟩ := exists_pair_of_accepts haccepts'
      obtain ⟨hvector, hrest⟩ := List.forall₂_cons.mp h
      obtain ⟨hindex, -⟩ := List.forall₂_cons.mp hrest
      simp only [SameOutcome, attempt_component, Attempt.outcome_andThen]
      rw [hvector, hindex]
      simp only [scene.outcome_needVector vector vector',
        scene.outcome_component (operation .component [vector, index])
          (operation .component [vector', index']) index index']
    · rw [SameOutcome, outcome_applied hop haccepts, outcome_applied hop haccepts',
        outcome_attemptColumns_congr op h]
  · have haccepts' : ¬op.arity.accepts args'.length := hlength ▸ haccepts
    rw [SameOutcome, attempt_refused _ haccepts, attempt_refused _ haccepts', hlength]
    rfl

/-! ### Spliced operands -/

/-- Arguments can be evaluated in two parts. -/
theorem outcome_attemptColumns_append (op : Operator) (args more : List Expr) :
    (attemptColumns scene op (args ++ more)).outcome =
      (attemptColumns scene op args).outcome.bind fun columns ↦
        (attemptColumns scene op more).outcome.bind fun rest ↦ .ok (columns ++ rest) := by
  induction args with
  | nil =>
    show _ = (attemptColumns scene op more).outcome.bind fun rest ↦ .ok rest
    rw [List.nil_append]
    cases (attemptColumns scene op more).outcome <;> rfl
  | cons arg args ih =>
    rw [List.cons_append, outcome_attemptColumns_cons, outcome_attemptColumns_cons, ih]
    -- Whatever comes first in an error ends both.
    rcases (arg.attempt scene).outcome with error | value
    · rfl
    show (scene.expand op arg value).outcome.bind _ =
      ((scene.expand op arg value).outcome.bind _).bind _
    rcases (scene.expand op arg value).outcome with error | first
    · rfl
    show ((attemptColumns scene op args).outcome.bind _).bind _ =
      ((attemptColumns scene op args).outcome.bind _).bind _
    rcases (attemptColumns scene op args).outcome with error | columns
    · rfl
    show ((attemptColumns scene op more).outcome.bind _).bind _ = _
    rcases (attemptColumns scene op more).outcome with error | rest
    · rfl
    · exact congrArg Except.ok (List.append_assoc first columns rest).symm

/-- A sum at the start of a sum has the outcome of one sum, and so has a product. -/
theorem sameOutcome_splice (hop : op = .add ∨ op = .multiply) {args rest : List Expr}
    (hargs : op.arity.accepts args.length) (hrest : op.arity.accepts (rest.length + 1)) :
    SameOutcome scene (operation op (args ++ rest)) (operation op (operation op args :: rest)) := by
  have hcomponent : op ≠ .component := by rcases hop with rfl | rfl <;> exact nofun
  have hboth : op.arity.accepts (args ++ rest).length :=
    accepts_of_le hop hargs (by rw [List.length_append]; omega)
  have hnested : op.arity.accepts (operation op args :: rest).length := hrest
  rw [SameOutcome, outcome_applied hcomponent hboth, outcome_applied hcomponent hnested,
    outcome_attemptColumns_append, outcome_attemptColumns_cons, outcome_applied hcomponent hargs]
  rcases (attemptColumns scene op args).outcome with error | columns
  · rfl
  · show ((attemptColumns scene op rest).outcome.bind _).bind _ =
      ((attemptColumns scene op rest).outcome.bind _).bind _
    rcases (attemptColumns scene op rest).outcome with error | more
    · rfl
    · exact congrArg (fun column ↦ Except.ok (Value.scalar column))
        (Operator.applyColumns_splice hop scene.env.rows columns more)

/-- A negated finite number has the outcome of the number of the other sign. -/
theorem sameOutcome_negate {value : Float} (h : value.isFinite) :
    SameOutcome scene (number (-value)) (operation .negate [number value]) := by
  rw [SameOutcome, outcome_applied (by exact nofun) rfl]
  show _ = Except.ok (Value.scalar (.constant (Scene.valueOf (Operator.negate.apply [value]))))
  rw [Operator.valueOf_apply_negate h]
  rfl

/-- Assembled or not, an operation has the same outcome. -/
theorem sameOutcome_assemble {first : Expr} {rest : List Expr} (hfirst : first.Printable)
    (haccepts : op.arity.accepts (rest.length + 1)) :
    SameOutcome scene (assemble op (first :: rest)) (operation op (first :: rest)) := by
  rcases assemble_cases op first rest with heq | ⟨args, hop, rfl, heq⟩ | ⟨value, rfl, rfl, rfl, heq⟩
  · rw [heq]
    rfl
  · rw [heq]
    exact sameOutcome_splice hop (printable_operation.mp hfirst).1 haccepts
  · rw [heq]
    exact sameOutcome_negate (printable_number.mp hfirst)

/-! ### Normal forms -/

theorem SameOutcome.trans {e e' e'' : Expr} (h : SameOutcome scene e e')
    (h' : SameOutcome scene e' e'') : SameOutcome scene e e'' := Eq.trans h h'

/-- The normal form of an operation, from those of its operands. -/
theorem sameOutcome_normalize_cons {first : Expr} {rest : List Expr}
    (h : (operation op (first :: rest)).Printable)
    (hfirst : SameOutcome scene first.normalize first)
    (hrest : ∀ arg ∈ rest, SameOutcome scene (normalizeOperand op arg) arg) :
    SameOutcome scene (normalize (.operation op (first :: rest)))
      (operation op (first :: rest)) := by
  rw [normalize_cons]
  have hlength : op.arity.accepts ((rest.map (normalizeOperand op)).length + 1) := by
    rw [List.length_map]
    exact h.accepts
  refine (sameOutcome_assemble (h.of_mem List.mem_cons_self).isNormal.printable hlength).trans ?_
  refine sameOutcome_operation op (.cons hfirst ?_)
  exact List.forall₂_map_left_iff.mpr (List.forall₂_same.mpr hrest)

/-- An operand after a connective, from the normal form of what follows its sign. -/
theorem sameOutcome_normalizeOperand {c : Connective} (hop : op.connective? = some c) {arg : Expr}
    (h : SameOutcome scene (normalize (c.link arg).2) (c.link arg).2) :
    SameOutcome scene (normalizeOperand op arg) arg := by
  rcases link_eq c arg with ⟨a, rfl, rfl, hlink⟩ | ⟨hne, hlink⟩ <;> rw [hlink] at h
  · obtain rfl := (Operator.eq_add_iff_eq_plus hop).mpr rfl
    rw [normalizeOperand_negate]
    exact sameOutcome_operation .negate (.cons h .nil)
  · rw [normalizeOperand_of_ne fun heq ↦ hne ((Operator.eq_add_iff_eq_plus hop).mp heq)]
    exact h

/-- A printable expression has the outcome of its normal form. -/
theorem Printable.sameOutcome_normalize {e : Expr} (h : e.Printable) (scene : Scene) :
    SameOutcome scene e.normalize e := by
  induction e, h using Printable.induction with
  | number value h =>
    rw [number, normalize]
    rfl
  | bool value h =>
    rw [bool, normalize]
    rfl
  | symbol name h =>
    rw [normalize]
    rfl
  | linked op c first rest h hop hfirst hrest =>
    exact sameOutcome_normalize_cons h hfirst fun arg harg ↦
      sameOutcome_normalizeOperand hop (hrest arg harg)
  | negate arg h harg => exact sameOutcome_normalize_cons h harg (by simp)
  | call op first rest h hop _ hargs =>
    have hadd := Operator.ne_add_of_connective?_eq_none hop
    refine sameOutcome_normalize_cons h (hargs first List.mem_cons_self) fun arg harg ↦ ?_
    rw [normalizeOperand_of_ne fun heq ↦ absurd heq hadd]
    exact hargs arg (List.mem_cons_of_mem _ harg)

/-- As whole expressions they have the same outcome too. -/
theorem Printable.outcome_normalize {e : Expr} (h : e.Printable) (scene : Scene) :
    (e.normalize.attemptColumn scene).outcome = (e.attemptColumn scene).outcome := by
  rw [attemptColumn_eq, attemptColumn_eq, Attempt.outcome_andThen, Attempt.outcome_andThen,
    h.sameOutcome_normalize scene]
  simp only [scene.outcome_needScalar e.normalize e]

end Expr

end Tradeoff
