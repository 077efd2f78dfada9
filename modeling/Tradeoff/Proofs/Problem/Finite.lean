import Tradeoff.Expr.Nodes
import Tradeoff.Proofs.Decimal.Doubles
import Tradeoff.Problem.Basic

/-!
# Problems with finite numbers

The numbers of a problem are the data that it is given by (`Draft.FiniteData`) and those in its
expressions (`Draft.EveryExpr`). If all of them are finite, the problem is equal to itself
(`Problem.beq_self`), which is not so of numbers in general.
-/

open Float.Model

namespace Tradeoff

/-! ### Data -/

/-- If the number is there, it is finite. -/
def IsFinite? (x? : Option Float) : Prop := ∀ x ∈ x?, x.isFinite

instance (x? : Option Float) : Decidable (IsFinite? x?) :=
  inferInstanceAs (Decidable (∀ x ∈ x?, x.isFinite))

/-- If the literal is a number, it is finite. -/
def Literal.IsFinite (value : Literal) : Prop := IsFinite? value.number?

instance (value : Literal) : Decidable value.IsFinite :=
  inferInstanceAs (Decidable (IsFinite? value.number?))

/-- The bounds of a decision variable and the start of a search are finite. -/
structure Variable.FiniteData (v : Variable) : Prop where
  /-- The lower bound. -/
  lower : IsFinite? v.lower?
  /-- The upper bound. -/
  upper : IsFinite? v.upper?
  /-- The start. -/
  initial : IsFinite? v.initial?

instance (v : Variable) : Decidable v.FiniteData :=
  decidable_of_iff (IsFinite? v.lower? ∧ IsFinite? v.upper? ∧ IsFinite? v.initial?)
    ⟨fun h ↦ ⟨h.1, h.2.1, h.2.2⟩, fun h ↦ ⟨h.lower, h.upper, h.initial⟩⟩

/-- The best and the worst value of an objective are finite. -/
structure Objective.FiniteData (f : Objective) : Prop where
  /-- The best value. -/
  ideal : IsFinite? f.ideal?
  /-- The worst value. -/
  nadir : IsFinite? f.nadir?

instance (f : Objective) : Decidable f.FiniteData :=
  decidable_of_iff (IsFinite? f.ideal? ∧ IsFinite? f.nadir?)
    ⟨fun h ↦ ⟨h.1, h.2⟩, fun h ↦ ⟨h.ideal, h.nadir⟩⟩

/-- All values in the columns are finite. -/
def FiniteColumns (columns : List (String × Array Float)) : Prop :=
  ∀ column ∈ columns, ∀ x ∈ column.2, x.isFinite

instance (columns : List (String × Array Float)) : Decidable (FiniteColumns columns) :=
  inferInstanceAs (Decidable (∀ column ∈ columns, ∀ x ∈ column.2, x.isFinite))

/-- All stored values are finite. -/
structure StoredSamples.FiniteData (s : StoredSamples) : Prop where
  /-- Those of decision variables. -/
  decisions : FiniteColumns s.decisions.entries
  /-- Those that are known of the samples. -/
  values : FiniteColumns s.values.entries

instance (s : StoredSamples) : Decidable s.FiniteData :=
  decidable_of_iff (FiniteColumns s.decisions.entries ∧ FiniteColumns s.values.entries)
    ⟨fun h ↦ ⟨h.1, h.2⟩, fun h ↦ ⟨h.decisions, h.values⟩⟩

namespace Draft

/-- All numbers that are data are finite. -/
structure FiniteData (d : Draft) : Prop where
  /-- Those of constants. -/
  constants : ∀ c ∈ d.constants, c.value.IsFinite
  /-- Those of decision variables. -/
  decisions : ∀ v ∈ d.decisions, v.FiniteData
  /-- Those of objectives. -/
  objectives : ∀ f ∈ d.objectives, f.FiniteData
  /-- Those of stored samples. -/
  samples : ∀ s ∈ d.samples?, s.FiniteData

instance (d : Draft) : Decidable d.FiniteData :=
  decidable_of_iff ((∀ c ∈ d.constants, c.value.IsFinite) ∧ (∀ v ∈ d.decisions, v.FiniteData) ∧
      (∀ f ∈ d.objectives, f.FiniteData) ∧ ∀ s ∈ d.samples?, s.FiniteData)
    ⟨fun h ↦ ⟨h.1, h.2.1, h.2.2.1, h.2.2.2⟩,
      fun h ↦ ⟨h.constants, h.decisions, h.objectives, h.samples⟩⟩

/-- All expressions of fields have the property. -/
def EveryExpr (d : Draft) (P : Expr → Prop) : Prop :=
  ∀ field ∈ d.fields, ∀ e ∈ field.expr?, P e

/-- A property of every expression is one of those of each kind of field. -/
theorem everyExpr_iff {d : Draft} {P : Expr → Prop} : d.EveryExpr P ↔
    (∀ f ∈ d.extraFunctions, P f.expr) ∧ (∀ f ∈ d.objectives, ∀ e ∈ f.expr?, P e) ∧
      (∀ c ∈ d.constraints, P c.expr) ∧ ∀ f ∈ d.scalarizations, P f.expr := by
  simp only [EveryExpr, fields, List.forall_mem_append, List.forall_mem_map, Field.expr?,
    Option.mem_def, Option.some.injEq, forall_eq', reduceCtorEq, false_implies, implies_true,
    true_and, and_assoc]

end Draft

/-! ### Equality -/

/-- A finite number is equal to itself, since it is not NaN. -/
theorem beq_self_of_isFinite {x : Float} (h : x.isFinite) : (x == x) = true := by
  show x.toModel.unpack.beq x.toModel.unpack = true
  have hstatus : x.toModel.unpack.isFinite = true := h
  revert hstatus
  rcases x.toModel.unpack with _ | _ | sign | ⟨sign, mantissa, exponent, hpos⟩ <;> intro hstatus
  · cases hstatus
  · cases hstatus
  · rfl
  · cases sign <;> simp [UnpackedFloat.beq, UnpackedFloat.compare]

/-- A list is equal to itself if its items are. -/
theorem list_beq_self {α : Type} [BEq α] {xs : List α} (h : ∀ x ∈ xs, (x == x) = true) :
    (xs == xs) = true := by
  induction xs with
  | nil => rfl
  | cons x xs ih =>
    rw [List.forall_mem_cons] at h
    rw [List.cons_beq_cons, h.1, ih h.2]
    rfl

theorem option_beq_self {α : Type} [BEq α] {x? : Option α} (h : ∀ x ∈ x?, (x == x) = true) :
    (x? == x?) = true := by
  cases x? with
  | none => rfl
  | some x => exact h x rfl

theorem option_beq_self_of_isFinite {x? : Option Float} (h : IsFinite? x?) : (x? == x?) = true :=
  option_beq_self fun x hx ↦ beq_self_of_isFinite (h x hx)

/-- Columns of finite numbers are equal to themselves. -/
theorem columns_beq_self {columns : List (String × Array Float)} (h : FiniteColumns columns) :
    (columns == columns) = true := by
  refine list_beq_self fun column hcolumn ↦ ?_
  show (column.1 == column.1 && column.2 == column.2) = true
  rw [Bool.and_eq_true, ← Array.beq_toList]
  exact ⟨beq_self_eq_true _, list_beq_self fun x hx ↦
    beq_self_of_isFinite (h column hcolumn x (Array.mem_toList_iff.mp hx))⟩

/-- A finite literal is equal to itself. -/
theorem Literal.beq_self {value : Literal} (h : value.IsFinite) : (value == value) = true := by
  cases value with
  | number x => exact beq_self_of_isFinite (h x rfl)
  | bool b => exact beq_self_eq_true b

namespace Expr

mutual

/-- By induction on the expression. -/
theorem beq_self : ∀ e : Expr, e.FiniteNumbers → beq e e = true
  | .literal (.number x), h => by
    rw [beq]
    exact beq_self_of_isFinite (h x (self_mem_nodes _))
  | .literal (.bool b), _ => by
    rw [beq]
    exact beq_self_eq_true b
  | .symbol name, _ => by
    rw [beq]
    exact beq_self_eq_true name
  | .operation op args, h => by
    rw [beq, Bool.and_eq_true]
    exact ⟨beq_self_eq_true op, beqList_self args (finiteNumbers_operation.mp h)⟩

/-- By recursion on the arguments, along with expressions. -/
theorem beqList_self : ∀ args : List Expr, (∀ arg ∈ args, arg.FiniteNumbers) →
    beqList args args = true
  | [], _ => by rw [beqList]
  | arg :: args, h => by
    rw [List.forall_mem_cons] at h
    rw [beqList, beq_self arg h.1, beqList_self args h.2]
    rfl

end

end Expr

/-- A constant is equal to itself if its value is finite. -/
theorem Constant.beq_self {c : Constant} (h : c.value.IsFinite) : (c == c) = true := by
  show (c.name == c.name && (c.symbol == c.symbol && c.value == c.value)) = true
  simp [Literal.beq_self h]

/-- A variable is equal to itself if its bounds and its initial value are finite. -/
theorem Variable.beq_self {v : Variable} (h : v.FiniteData) : (v == v) = true := by
  show (v.name == v.name && (v.symbol == v.symbol && (v.shape == v.shape &&
    (v.lower? == v.lower? && (v.upper? == v.upper? && v.initial? == v.initial?))))) = true
  rw [option_beq_self_of_isFinite h.lower, option_beq_self_of_isFinite h.upper,
    option_beq_self_of_isFinite h.initial]
  simp

/-- A derived function is equal to itself if the numbers in its expression are finite. -/
theorem DerivedFunction.beq_self {f : DerivedFunction} (h : f.expr.FiniteNumbers) :
    (f == f) = true := by
  show (f.name == f.name && (f.symbol == f.symbol && f.expr.beq f.expr)) = true
  simp [f.expr.beq_self h]

/-- An objective is equal to itself if its data and the numbers in its expression are finite. -/
theorem Objective.beq_self {f : Objective} (hdata : f.FiniteData)
    (hexpr : ∀ e ∈ f.expr?, e.FiniteNumbers) : (f == f) = true := by
  show (f.name == f.name && (f.symbol == f.symbol && (f.expr? == f.expr? &&
    (f.maximize == f.maximize && (f.ideal? == f.ideal? && f.nadir? == f.nadir?))))) = true
  rw [option_beq_self fun e he ↦ e.beq_self (hexpr e he),
    option_beq_self_of_isFinite hdata.ideal, option_beq_self_of_isFinite hdata.nadir]
  simp

/-- A constraint is equal to itself if the numbers in its expression are finite. -/
theorem Constraint.beq_self {c : Constraint} (h : c.expr.FiniteNumbers) : (c == c) = true := by
  show (c.name == c.name && (c.symbol == c.symbol && (c.expr.beq c.expr && c.kind == c.kind))) =
    true
  simp [c.expr.beq_self h]

/-- Stored samples are equal to themselves if all columns are finite. -/
theorem StoredSamples.beq_self {s : StoredSamples} (h : s.FiniteData) : (s == s) = true := by
  show (s.decisions.entries == s.decisions.entries && s.values.entries == s.values.entries &&
    s.nonDominated == s.nonDominated) = true
  rw [columns_beq_self h.decisions, columns_beq_self h.values]
  simp

/-- A problem with finite numbers is equal to itself. -/
theorem Problem.beq_self {p : Problem} (hdata : p.draft.FiniteData)
    (hexpr : p.draft.EveryExpr Expr.FiniteNumbers) : (p == p) = true := by
  obtain ⟨hextra, hobjectives, hconstraints, hscalarizations⟩ := Draft.everyExpr_iff.mp hexpr
  show (p.draft.name == p.draft.name && (p.draft.about == p.draft.about &&
    (p.draft.constants == p.draft.constants && (p.draft.decisions == p.draft.decisions &&
    (p.draft.extraFunctions == p.draft.extraFunctions &&
    (p.draft.objectives == p.draft.objectives && (p.draft.constraints == p.draft.constraints &&
    (p.draft.scalarizations == p.draft.scalarizations &&
      p.draft.samples? == p.draft.samples?)))))))) = true
  rw [list_beq_self fun c hc ↦ Constant.beq_self (hdata.constants c hc),
    list_beq_self fun v hv ↦ Variable.beq_self (hdata.decisions v hv),
    list_beq_self fun f hf ↦ DerivedFunction.beq_self (hextra f hf),
    list_beq_self fun f hf ↦ Objective.beq_self (hdata.objectives f hf) (hobjectives f hf),
    list_beq_self fun c hc ↦ Constraint.beq_self (hconstraints c hc),
    list_beq_self fun f hf ↦ DerivedFunction.beq_self (hscalarizations f hf),
    option_beq_self fun s hs ↦ StoredSamples.beq_self (hdata.samples s hs)]
  simp

end Tradeoff
