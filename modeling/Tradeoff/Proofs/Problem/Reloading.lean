import Tradeoff.Proofs.Problem.Description

/-!
# Loaded problems and their descriptions

A problem that was loaded from a description is loaded again from its own description, as an equal
problem, exactly if all numbers in its expressions are finite (`Problem.reloads_iff`). These are the
only numbers that can be lost: JSON has finite numbers only, but a numeral of a formula may be too
large and stands for an infinity then. The array form has null in its place. Null is read as no
expression where it stands for the whole expression of an objective, so the loss may even go
unnoticed (`Problem.infinityDescription_reloads_differently`).
-/

namespace Tradeoff

namespace Json

theorem bind_eq_ok {α β : Type} {r : Reading α} {next : α → Reading β} {b : β}
    (h : r >>= next = .ok b) : ∃ a, r = .ok a ∧ next a = .ok b := by
  rcases r with error | a
  · cases h
  · exact ⟨a, rfl, h⟩

/-- If a described list is read as an equal list, each item is read as an equal one. -/
theorem exists_of_readAll_map {α : Type} [BEq α] {read : Json → Reading α} {write : α → Json}
    {xs ys : List α} (h : readAll read (xs.map write) = .ok ys) (heq : (ys == xs) = true) :
    ∀ x ∈ xs, ∃ y, read (write x) = .ok y ∧ (y == x) = true := by
  induction xs generalizing ys with
  | nil => exact nofun
  | cons x xs ih =>
    rw [List.map_cons, readAll] at h
    obtain ⟨y, hy, hrest⟩ := bind_eq_ok h
    obtain ⟨ys, hys, hresult⟩ := bind_eq_ok hrest
    cases hresult
    rw [List.cons_beq_cons, Bool.and_eq_true] at heq
    exact List.forall_mem_cons.mpr ⟨⟨y, hy, heq.1⟩, ih hys heq.2⟩

/-! ### Expressions -/

theorem finiteNumbers_of_readExpr {e e' : Expr} (h : ∀ symbol ∈ e.mentions, isIdentifier symbol)
    (hread : readExpr e.toArrayForm = .ok e') : e.FiniteNumbers :=
  ((Expr.ofSource?_toArrayForm_eq_ok_iff h).mp (readExpr_eq_ok_iff.mp hread)).2.1

theorem finiteNumbers_of_readFunction {f f' : DerivedFunction}
    (h : ∀ symbol ∈ f.expr.mentions, isIdentifier symbol)
    (hread : readFunction f.describe = .ok f') : f.expr.FiniteNumbers := by
  rw [readFunction_describe] at hread
  obtain ⟨e, he, -⟩ := bind_eq_ok hread
  exact finiteNumbers_of_readExpr h he

theorem finiteNumbers_of_readConstraint {c c' : Constraint}
    (h : ∀ symbol ∈ c.expr.mentions, isIdentifier symbol)
    (hread : readConstraint c.describe = .ok c') : c.expr.FiniteNumbers := by
  rw [readConstraint_describe] at hread
  obtain ⟨e, he, -⟩ := bind_eq_ok hread
  exact finiteNumbers_of_readExpr h he

/-- An objective may be read without its expression, but it is not the same objective then. -/
theorem finiteNumbers_of_readObjective {f f' : Objective} (hdata : f.FiniteData) {e : Expr}
    (he : f.expr? = some e) (h : ∀ symbol ∈ e.mentions, isIdentifier symbol)
    (hread : readObjective f.describe = .ok f') (heq : (f' == f) = true) : e.FiniteNumbers := by
  rw [readObjective_describe hdata, he] at hread
  obtain ⟨e?, hexpr, hf⟩ := bind_eq_ok hread
  cases hf
  have hsome : (e? == some e) = true := by
    have hall : (f.name == f.name && (f.symbol == f.symbol && (e? == f.expr? &&
      (f.maximize == f.maximize && (f.ideal? == f.ideal? && f.nadir? == f.nadir?))))) = true := heq
    simp only [Bool.and_eq_true] at hall
    exact he ▸ hall.2.2.1
  unfold readExpr? at hexpr
  split at hexpr
  · cases hexpr
    cases hsome
  · obtain ⟨e', he', -⟩ := bind_eq_ok hexpr
    exact finiteNumbers_of_readExpr h he'

end Json

namespace Problem

/-- What is read back as an equal problem has finite numbers in its expressions. -/
theorem everyExpr_finiteNumbers_of_reload {p q : Problem} (hdata : p.draft.FiniteData)
    (hread : ofDescription? p.describe = .ok q) (heq : (q == p) = true) :
    p.draft.EveryExpr Expr.FiniteNumbers := by
  obtain ⟨hextra, hobjectives, hconstraints, hscalarizations⟩ :=
    Draft.everyExpr_iff.mp p.everyExpr_identifiers
  have hdraft : p.draft.describe.readDraft = .ok q.draft := ofDescription?_eq_ok_iff.mp hread
  rw [Json.readDraft_describe hdata] at hdraft
  obtain ⟨cs, hcs, hdraft⟩ := Json.bind_eq_ok hdraft
  obtain ⟨es, hes, hdraft⟩ := Json.bind_eq_ok hdraft
  obtain ⟨fs, hfs, hdraft⟩ := Json.bind_eq_ok hdraft
  obtain ⟨ss, hss, hdraft⟩ := Json.bind_eq_ok hdraft
  have hq : (q.draft == p.draft) = true := heq
  rw [← Except.ok.inj hdraft] at hq
  have hall : (p.draft.name == p.draft.name && (p.draft.about == p.draft.about &&
      (p.draft.constants == p.draft.constants && (p.draft.decisions == p.draft.decisions &&
      (es == p.draft.extraFunctions && (fs == p.draft.objectives && (cs == p.draft.constraints &&
      (ss == p.draft.scalarizations && p.draft.samples? == p.draft.samples?)))))))) = true := hq
  simp only [Bool.and_eq_true] at hall
  obtain ⟨-, -, -, -, heqExtra, heqObjectives, heqConstraints, heqScalarizations, -⟩ := hall
  refine Draft.everyExpr_iff.mpr ⟨fun f hf ↦ ?_, fun f hf e he ↦ ?_, fun c hc ↦ ?_, fun f hf ↦ ?_⟩
  · obtain ⟨f', hf', -⟩ := Json.exists_of_readAll_map hes heqExtra f hf
    exact Json.finiteNumbers_of_readFunction (hextra f hf) hf'
  · obtain ⟨f', hf', hsame⟩ := Json.exists_of_readAll_map hfs heqObjectives f hf
    exact Json.finiteNumbers_of_readObjective (hdata.objectives f hf) he (hobjectives f hf e he) hf'
      hsame
  · obtain ⟨c', hc', -⟩ := Json.exists_of_readAll_map hcs heqConstraints c hc
    exact Json.finiteNumbers_of_readConstraint (hconstraints c hc) hc'
  · obtain ⟨f', hf', -⟩ := Json.exists_of_readAll_map hss heqScalarizations f hf
    exact Json.finiteNumbers_of_readFunction (hscalarizations f hf) hf'

/-- A problem loaded from a description is loaded again from its own description, as an equal
problem, exactly if all numbers in its expressions are finite; then it is the same problem. An
expression with a number that is not finite was a formula, in which a numeral is too large. -/
theorem reloads_iff (j : Json) (hj : j.FiniteNumbers) (p : Problem)
    (hp : ofDescription? j = .ok p) :
    ((∃ q, ofDescription? p.describe = .ok q ∧ (q == p) = true) ↔
      p.draft.EveryExpr Expr.FiniteNumbers) ∧
    (∀ q, ofDescription? p.describe = .ok q → (q == p) = true → q = p) ∧
    p.draft.EveryExpr fun e ↦ e.FiniteNumbers ∨ ∃ formula lexemes, scan formula = .ok lexemes ∧
      parse formula = .ok e ∧ ¬ FiniteNumerals (tokens lexemes) := by
  obtain ⟨hdata, hloaded⟩ := Json.readDraft_ensures j hj p.draft (ofDescription?_eq_ok_iff.mp hp)
  have harity : p.draft.EveryExpr Expr.TakesArity := fun field hfield e he ↦
    (hloaded field hfield e he).takesArity
  have hback (hnumbers : p.draft.EveryExpr Expr.FiniteNumbers) :
      ofDescription? p.describe = .ok p :=
    ofDescription?_eq_ok_iff.mpr <|
      Json.readDraft_describe_of_everyExpr hdata (everyExpr_printable hnumbers harity)
  refine ⟨⟨?_, fun hnumbers ↦ ⟨p, hback hnumbers, beq_self hdata hnumbers⟩⟩, fun q hq heq ↦ ?_,
    fun field hfield e he ↦ (hloaded field hfield e he).finite_or_formula⟩
  · rintro ⟨q, hq, heq⟩
    exact everyExpr_finiteNumbers_of_reload hdata hq heq
  · have hnumbers := everyExpr_finiteNumbers_of_reload hdata hq heq
    exact Except.ok.inj (hq.symm.trans (hback hnumbers))

/-- An expression with a number. -/
def successor : Expr := .add (.symbol "x") (.number 1)

theorem printable_successor : successor.Printable := by
  simp only [successor, Expr.add, Expr.printable_operation, List.forall_mem_cons, List.not_mem_nil,
    false_implies, implies_true, and_true]
  exact ⟨rfl, Expr.printable_symbol rfl, Expr.printable_number.mpr rfl⟩

/-- A description with the formula for the expression. -/
def successorDescription : Json :=
  .object [("objectives", .array [.object [("func", .string "x + 1"), ("name", .string "f"),
      ("symbol", .string "f")]]),
    ("variables", .array [.object [("name", .string "x"), ("symbol", .string "x")]])]

/-- The problem that is described. -/
def successorProblem : Problem :=
  ⟨{ Draft.empty "" with
      decisions := [⟨"x", "x", .scalar, none, none, none⟩]
      objectives := [⟨"f", "f", some successor, false, none, none⟩] }, by decide +kernel⟩

theorem successorDescription_reloads :
    successorDescription.FiniteNumbers ∧
      ofDescription? successorDescription = .ok successorProblem ∧
      successorProblem.draft.EveryExpr Expr.FiniteNumbers ∧
      ∃ q, ofDescription? successorProblem.describe = .ok q ∧ (q == successorProblem) = true ∧
        q = successorProblem := by
  have htext : successor.text = "x + 1" := by decide +kernel
  have hparse : parse successor.text = .ok successor :=
    (Expr.parse_text_eq_ok_iff printable_successor).mpr ⟨by decide, rfl⟩
  rw [htext] at hparse
  have hfinite : successorDescription.FiniteNumbers := by simp [successorDescription]
  have hload : ofDescription? successorDescription = .ok successorProblem := by
    rw [ofDescription?_eq_ok_iff]
    simp [successorDescription, successorProblem, Json.readDraft, Json.readAll, Json.readVariable,
      Json.readVariableDescription, VariableDescription.variable, Json.readObjective,
      Json.readExpr?, Json.readExpr, Expr.ofSource?, hparse, Shape.ofDimensions?, Draft.empty]
  have hnumbers : successorProblem.draft.EveryExpr Expr.FiniteNumbers := by
    simp [Draft.everyExpr_iff, successorProblem, Draft.empty, printable_successor.finiteNumbers]
  obtain ⟨hreloads, hsame, -⟩ := reloads_iff successorDescription hfinite successorProblem hload
  obtain ⟨q, hq, heq⟩ := hreloads.mpr hnumbers
  exact ⟨hfinite, hload, hnumbers, q, hq, heq, hsame q hq heq⟩

/-- A description in which the expression of an objective is too large for a number. There are
stored values of the objective. -/
def infinityDescription : Json :=
  .object [("discrete_representation", .object [
      ("objective_values", .object [("f", .array [.number (.integer 1)])]),
      ("variable_values", .object [])]),
    ("objectives", .array [.object [("func", .string "1e999"), ("name", .string "f"),
      ("symbol", .string "f")]])]

/-- The objective is loaded again, but without its expression. -/
theorem infinityDescription_reloads_differently :
    infinityDescription.FiniteNumbers ∧ ∃ p q, ofDescription? infinityDescription = .ok p ∧
      ofDescription? p.describe = .ok q ∧ (q == p) = false := by
  have hreload : ((ofDescription? infinityDescription).toOption.bind fun p ↦
      (ofDescription? p.describe).toOption.map fun q ↦ q == p) = some false := by
    decide +kernel
  refine ⟨?_, ?_⟩
  · have hone : (JsonNumber.integer 1).toFloat.isFinite := by decide +kernel
    simp [infinityDescription, hone]
  · rcases hp : ofDescription? infinityDescription with error | p
    · rw [hp] at hreload
      cases hreload
    · rcases hq : ofDescription? p.describe with error | q
      · rw [hp, Except.toOption, Option.bind_some, hq] at hreload
        cases hreload
      · rw [hp, Except.toOption, Option.bind_some, hq] at hreload
        exact ⟨p, q, rfl, hq, Option.some.inj hreload⟩

end Problem

end Tradeoff
