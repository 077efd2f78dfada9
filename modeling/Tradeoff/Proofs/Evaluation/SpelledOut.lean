import Tradeoff.Proofs.Decimal.Whole
import Tradeoff.Proofs.Evaluation.NormalForms
import Tradeoff.Proofs.Evaluation.WrittenOut

/-!
# Vectors spelled out

A whole vector among the arguments of an operator that expands vectors stands for its components. So
it may as well be spelled out, component by component with their indices, wherever it is such an
argument (`SpellsOut`): the values are the same, and so are the failures in their order or the error
(`SpellsOut.evaluate_spelledOut`), except for the formula of a node, which shows how it is written.

Attempts that differ in the formulas of nodes alone go along with each other step by step
(`Attempt.Resembles`).
-/

namespace Tradeoff

/-! ### Spelling out -/

/-- The components of a vector, one after another. -/
def Expr.components (symbol : String) (length : Nat) : List Expr :=
  (List.range length).map fun offset ↦ .component symbol (offset + 1)

mutual

/-- The second expression is the first with the vector of the symbol spelled out as so many
components at some places where it is an argument of an operator that expands vectors. -/
inductive SpellsOut (symbol : String) (length : Nat) : Expr → Expr → Prop where
  /-- A literal stays. -/
  | literal (value : Literal) : SpellsOut symbol length (.literal value) (.literal value)
  /-- A symbol stays where it is no such argument. -/
  | symbol (name : String) : SpellsOut symbol length (.symbol name) (.symbol name)
  /-- It is spelled out among the arguments, or in them. -/
  | operation {op : Operator} {args args' : List Expr} :
      SpellsOutArguments symbol length op args args' →
      SpellsOut symbol length (.operation op args) (.operation op args')

/-- The second list of arguments of an operator is the first with the vector spelled out at some
places. -/
inductive SpellsOutArguments (symbol : String) (length : Nat) :
    Operator → List Expr → List Expr → Prop where
  /-- No argument. -/
  | nil {op : Operator} : SpellsOutArguments symbol length op [] []
  /-- In an argument. -/
  | cons {op : Operator} {arg arg' : Expr} {args args' : List Expr} :
      SpellsOut symbol length arg arg' → SpellsOutArguments symbol length op args args' →
      SpellsOutArguments symbol length op (arg :: args) (arg' :: args')
  /-- In place of an argument. -/
  | vector {op : Operator} {args args' : List Expr} : op.expandsVectors →
      SpellsOutArguments symbol length op args args' →
      SpellsOutArguments symbol length op (.symbol symbol :: args)
        (Expr.components symbol length ++ args')

end

/-- An operator that expands vectors takes any number of arguments but none. -/
theorem Operator.accepts_of_expandsVectors {op : Operator} (hop : op.expandsVectors) {n : Nat}
    (h : 0 < n) : op.arity.accepts n := by
  cases op <;> first | exact decide_eq_true h | cases hop

namespace SpellsOutArguments

variable {symbol : String} {length : Nat} {op : Operator}

/-- Only for an operator that expands vectors does the number of arguments change. -/
theorem length_eq_or_expandsVectors {args args' : List Expr} :
    SpellsOutArguments symbol length op args args' →
      args.length = args'.length ∨ op.expandsVectors
  | .nil => .inl rfl
  | .cons _ h => h.length_eq_or_expandsVectors.imp (congrArg (· + 1)) id
  | .vector hop _ => .inr hop

variable {args args' : List Expr}

/-- As there are components, no arguments are left out. -/
theorem length_pos_iff (hpos : 0 < length) (h : SpellsOutArguments symbol length op args args') :
    0 < args.length ↔ 0 < args'.length := by
  cases h with
  | nil => exact Iff.rfl
  | cons _ _ => simp
  | vector _ _ => simp [Expr.components, hpos]

/-- An operator gets as many arguments as before, or it takes those before and after. -/
theorem length_eq_or_accepts (hpos : 0 < length)
    (h : SpellsOutArguments symbol length op args args') :
    args.length = args'.length ∨ op.arity.accepts args.length ∧ op.arity.accepts args'.length := by
  rcases h.length_eq_or_expandsVectors with hlength | hop
  · exact .inl hlength
  · have hsome := h.length_pos_iff hpos
    rcases Nat.eq_zero_or_pos args.length with hnone | hargs
    · exact .inl (by omega)
    · exact .inr ⟨op.accepts_of_expandsVectors hop hargs,
        op.accepts_of_expandsVectors hop (hsome.mp hargs)⟩

end SpellsOutArguments

/-! ### Attempts that resemble each other -/

/-- The failure without the formula of its node. -/
def Failure.withoutNode (f : Failure) : Failure := { f with node := "" }

/-- The attempt without the formulas of nodes. -/
def Attempt.withoutNodes {α : Type} (a : Attempt Failure α) : Attempt Failure α :=
  ⟨a.notes.map Failure.withoutNode, a.result.mapError EvalError.withoutNode⟩

/-- Two attempts differ in the formulas of nodes at most. -/
def Attempt.Resembles {α : Type} (a b : Attempt Failure α) : Prop := a.withoutNodes = b.withoutNodes

namespace Attempt

variable {α β : Type} {a b : Attempt Failure α}

/-- The nodes can be left out step by step. -/
theorem withoutNodes_andThen (a : Attempt Failure α) (next : α → Attempt Failure β) :
    (a.andThen next).withoutNodes =
      a.withoutNodes.andThen fun value ↦ (next value).withoutNodes := by
  obtain ⟨notes, error | value⟩ := a
  · rfl
  · simp [withoutNodes, andThen, Except.mapError]

/-- Attempts in a row resemble each other if they do step by step. -/
theorem Resembles.andThen {next next' : α → Attempt Failure β} (h : a.Resembles b)
    (hnext : ∀ value, (next value).Resembles (next' value)) :
    (a.andThen next).Resembles (b.andThen next') := by
  rw [Resembles, withoutNodes_andThen, withoutNodes_andThen, h]
  congr 1
  exact funext hnext

end Attempt

namespace Scene

variable (scene : Scene)

/-- Failures of rows differ in the node only. -/
theorem withoutNodes_rowFailures (node node' : Expr) (fault? : Nat → Option Fault) :
    (scene.rowFailures node fault?).map Failure.withoutNode =
      (scene.rowFailures node' fault?).map Failure.withoutNode := by
  simp only [rowFailures, List.map_filterMap, Option.map_map]
  rfl

/-- A value that is no vector is an error in any node. -/
theorem needVector_resembles (node node' : Expr) (value : Value) :
    (scene.needVector node value).Resembles (scene.needVector node' value) := by
  cases value <;> rfl

/-- A value that is no number is an error in any node. -/
theorem needScalar_resembles (node node' : Expr) (value : Value) :
    (scene.needScalar node value).Resembles (scene.needScalar node' value) := by
  cases value <;> rfl

/-- A vector stands for the same columns in any node. -/
theorem expand_resembles (op : Operator) (node node' : Expr) (value : Value) :
    (scene.expand op node value).Resembles (scene.expand op node' value) := by
  cases value with
  | scalar column => rfl
  | vector name components =>
    rw [expand, expand]
    split <;> rfl

/-- A vector has the same component at an index in any node. -/
theorem component_resembles (node node' indexNode indexNode' : Expr) (components : List Column)
    (index : Value) : (scene.component node indexNode components index).Resembles
      (scene.component node' indexNode' components index) := by
  unfold component
  split
  · rfl
  · rfl
  · split <;> rfl

/-- An operator gives the same column in any node. -/
theorem applyRows_resembles (node node' : Expr) (op : Operator) (columns : List Column) :
    (scene.applyRows node op columns).Resembles (scene.applyRows node' op columns) := by
  rcases hconstants : constants? columns with _ | args
  · rw [applyRows_of_samples hconstants, applyRows_of_samples hconstants]
    exact congrArg (Attempt.mk · _) (scene.withoutNodes_rowFailures node node' _)
  · rw [applyRows_of_constants hconstants, applyRows_of_constants hconstants]
    exact congrArg (Attempt.mk · _) (scene.withoutNodes_rowFailures node node' _)

end Scene

/-! ### The vector and its components -/

theorem Attempt.andThen_succeed {ν α : Type} (a : Attempt ν α) : a.andThen succeed = a := by
  obtain ⟨notes, error | value⟩ := a
  · rfl
  · rw [andThen_ok, succeed, List.append_nil]

namespace Expr

variable {scene : Scene} {symbol : String} {columns : List Column}

/-- Arguments that are scalars contribute their columns. -/
theorem attemptColumns_of_scalars (op : Operator) {args : List Expr}
    (h : List.Forall₂ (fun arg column ↦ arg.attempt scene = .succeed (.scalar column)) args columns)
    (more : List Expr) :
    attemptColumns scene op (args ++ more) =
      (attemptColumns scene op more).andThen fun rest ↦ .succeed (columns ++ rest) := by
  induction h with
  | nil => exact (Attempt.andThen_succeed _).symm
  | cons harg _ ih =>
    rw [List.cons_append, attemptColumns_cons, harg, ih]
    simp [Scene.expand, Attempt.andThen_assoc]

/-- The component of an index has the value of the component. -/
theorem attempt_component_of_lookup (h : scene.lookup symbol = .succeed (.vector symbol columns))
    {offset : Nat} (hoffset : offset + 1 < 2 ^ 53) {column : Column}
    (hcolumn : columns[offset]? = some column) :
    (component symbol (offset + 1)).attempt scene = .succeed (.scalar column) := by
  have hlookup : (Expr.symbol symbol).attempt scene = scene.lookup symbol := by rw [attempt]
  have hindex : (number (Float.ofNat (offset + 1))).attempt scene =
      .succeed (.scalar (.constant (Float.ofNat (offset + 1)))) := by rw [number, attempt]
  rw [component, attempt_component, hlookup, h, hindex]
  simp [Scene.needVector, Scene.component, offset?_ofNat (Nat.succ_pos offset) hoffset, hcolumn]

/-- The components of a vector, taken with their indices, are its columns. Indices are exact up to
the limit. -/
theorem attempt_components (h : scene.lookup symbol = .succeed (.vector symbol columns))
    (hlength : columns.length < 2 ^ 53) :
    List.Forall₂ (fun arg column ↦ arg.attempt scene = .succeed (.scalar column))
      (components symbol columns.length) columns := by
  refine List.forall₂_iff_get.mpr ⟨by simp [components], fun offset _ hoffset ↦ ?_⟩
  have hcolumn : columns[offset]? = some (columns.get ⟨offset, hoffset⟩) :=
    List.getElem?_eq_getElem hoffset
  simpa [components] using attempt_component_of_lookup h (by omega) hcolumn

/-- If the vector has a column that does not fit, so it is for a component. -/
theorem attempt_component_of_error {error : EvalError} (h : scene.lookup symbol = .fail error)
    (index : Nat) : (component symbol index).attempt scene = .fail error := by
  have hlookup : (Expr.symbol symbol).attempt scene = scene.lookup symbol := by rw [attempt]
  rw [component, attempt_component, hlookup, h, Attempt.fail_andThen]

/-- A whole vector contributes what its components contribute one by one. -/
theorem attemptColumns_components {op : Operator} (hop : op.expandsVectors)
    (hfind : scene.env.find? symbol = some (.vector columns)) (hpos : 0 < columns.length)
    (hlength : columns.length < 2 ^ 53) (args : List Expr) :
    attemptColumns scene op (.symbol symbol :: args) =
      attemptColumns scene op (components symbol columns.length ++ args) := by
  have hlookup : (Expr.symbol symbol).attempt scene = scene.lookup symbol := by rw [attempt]
  rw [attemptColumns_cons, hlookup]
  rcases hmisfit : columns.findSome? (scene.misfit? symbol) with _ | error
  · have hvector : scene.lookup symbol = .succeed (.vector symbol columns) := by
      simp only [Scene.lookup, hfind, hmisfit]
    rw [attemptColumns_of_scalars op (attempt_components hvector hlength), hvector]
    simp [Scene.expand, hop]
  · have herror : scene.lookup symbol = .fail error := by
      simp only [Scene.lookup, hfind, hmisfit]
    obtain ⟨rest, hrest⟩ : ∃ rest, components symbol columns.length =
        component symbol 1 :: rest := by
      obtain ⟨n, hn⟩ := Nat.exists_eq_add_of_lt hpos
      rw [hn, components, List.range_succ_eq_map]
      exact ⟨_, rfl⟩
    rw [hrest, herror, List.cons_append, attemptColumns_cons, attempt_component_of_error herror,
      Attempt.fail_andThen, Attempt.fail_andThen]

/-! ### Expressions -/

/-- Arguments resemble each other from left to right. A vector that is spelled out has as many of
them as it has components. -/
theorem attemptColumns_resembles {op : Operator} {args args' : List Expr}
    (hfind : scene.env.find? symbol = some (.vector columns)) (hpos : 0 < columns.length)
    (hlength : columns.length < 2 ^ 53)
    (hargs : ∀ arg ∈ args, ∀ arg', SpellsOut symbol columns.length arg arg' →
      (arg.attempt scene).Resembles (arg'.attempt scene))
    (h : SpellsOutArguments symbol columns.length op args args') :
    (attemptColumns scene op args).Resembles (attemptColumns scene op args') := by
  induction args generalizing args' with
  | nil =>
    cases h
    rfl
  | cons arg args ih =>
    have hmore {args'} (h : SpellsOutArguments symbol columns.length op args args') :=
      ih (fun next hnext ↦ hargs next (List.mem_cons_of_mem _ hnext)) h
    cases h with
    | cons harg h =>
      rw [attemptColumns_cons, attemptColumns_cons]
      refine (hargs arg List.mem_cons_self _ harg).andThen fun value ↦ ?_
      refine (scene.expand_resembles op arg _ value).andThen fun front ↦ ?_
      exact (hmore h).andThen fun rest ↦ rfl
    | vector hop h =>
      rw [← attemptColumns_components hop hfind hpos hlength, attemptColumns_cons,
        attemptColumns_cons]
      refine Attempt.Resembles.andThen rfl fun value ↦ ?_
      refine (scene.expand_resembles op _ _ value).andThen fun front ↦ ?_
      exact (hmore h).andThen fun rest ↦ rfl

/-- By induction along the evaluation of the expression before it was spelled out. -/
theorem attempt_resembles (hfind : scene.env.find? symbol = some (.vector columns))
    (hpos : 0 < columns.length) (hlength : columns.length < 2 ^ 53) (e : Expr) :
    ∀ e', SpellsOut symbol columns.length e e' →
      (e.attempt scene).Resembles (e'.attempt scene) := by
  induction e using attempt_induction with
  | number value =>
    intro e' h
    cases h
    rfl
  | bool value =>
    intro e' h
    cases h
    rfl
  | symbol name =>
    intro e' h
    cases h
    rfl
  | refused op args hrefused =>
    intro e' h
    cases h with | @operation _ _ args' hargs =>
    have hsame := (hargs.length_eq_or_accepts hpos).resolve_right fun haccepts ↦
      hrefused haccepts.1
    rw [attempt_refused _ hrefused, attempt_refused _ (hsame ▸ hrefused), hsame]
    rfl
  | component vector index ihvector ihindex =>
    intro e' h
    cases h with | operation hargs =>
    -- A component has two arguments and expands neither.
    cases hargs with
    | vector hop _ => cases hop
    | cons hvector hargs =>
      cases hargs with
      | vector hop _ => cases hop
      | cons hindex hargs =>
        cases hargs
        rw [attempt_component, attempt_component]
        refine (ihvector _ hvector).andThen fun value ↦ ?_
        refine (scene.needVector_resembles _ _ value).andThen fun components ↦ ?_
        exact (ihindex _ hindex).andThen fun position ↦
          scene.component_resembles _ _ _ _ components position
  | applied op args hop haccepts ih =>
    intro e' h
    cases h with | @operation _ _ args' hargs =>
    have haccepts' : op.arity.accepts args'.length :=
      (hargs.length_eq_or_accepts hpos).elim (fun hsame ↦ hsame ▸ haccepts) (·.2)
    rw [attempt_applied _ hop haccepts, attempt_applied _ hop haccepts']
    refine (attemptColumns_resembles hfind hpos hlength ih hargs).andThen fun columns ↦ ?_
    exact (scene.applyRows_resembles _ _ op columns).andThen fun column ↦ rfl

theorem attemptColumn_resembles (hfind : scene.env.find? symbol = some (.vector columns))
    (hpos : 0 < columns.length) (hlength : columns.length < 2 ^ 53) {e e' : Expr}
    (h : SpellsOut symbol columns.length e e') :
    (e.attemptColumn scene).Resembles (e'.attemptColumn scene) := by
  rw [attemptColumn_eq, attemptColumn_eq]
  exact (attempt_resembles hfind hpos hlength e e' h).andThen fun value ↦
    scene.needScalar_resembles e e' value

end Expr

/-! ### Outcomes -/

/-- Under either policy, attempts that resemble each other have the same value and the same failures
but for the formulas of nodes, or errors that differ in the node at most. -/
theorem Policy.settle_of_resembles {α : Type} {a b : Attempt Failure α} (h : a.Resembles b)
    (policy : Policy) :
    (∃ error error', policy.settle a = .error error ∧ policy.settle b = .error error' ∧
      error.withoutNode = error'.withoutNode) ∨
    ∃ value failures failures', policy.settle a = .ok (value, failures) ∧
      policy.settle b = .ok (value, failures') ∧
      failures.map Failure.withoutNode = failures'.map Failure.withoutNode := by
  have hnotes : a.notes.map Failure.withoutNode = b.notes.map Failure.withoutNode :=
    congrArg Attempt.notes h
  have houtcome : a.outcome = b.outcome := congrArg Attempt.result h
  obtain ⟨notes, result⟩ := a
  obtain ⟨notes', result'⟩ := b
  rcases Attempt.cases_of_outcome_eq houtcome with
    ⟨error, error', rfl, rfl, herror⟩ | ⟨value, rfl, rfl⟩
  · cases policy with
    | perRow => exact .inl ⟨error, error', rfl, rfl, herror⟩
    | failFast =>
      rcases notes with _ | ⟨f, notes⟩ <;> rcases notes' with _ | ⟨f', notes'⟩
      · exact .inl ⟨error, error', rfl, rfl, herror⟩
      · cases hnotes
      · cases hnotes
      · exact .inl ⟨_, _, rfl, rfl, congrArg EvalError.failure (List.cons.inj hnotes).1⟩
  · cases policy with
    | perRow =>
      refine .inr ⟨value, _, _, rfl, rfl, ?_⟩
      have hkept (f : Failure) : f.withoutNode.sample = f.sample := rfl
      rw [← firstPerSample_map hkept, hnotes, firstPerSample_map hkept]
    | failFast =>
      rcases notes with _ | ⟨f, notes⟩ <;> rcases notes' with _ | ⟨f', notes'⟩
      · exact .inr ⟨value, [], [], rfl, rfl, rfl⟩
      · cases hnotes
      · cases hnotes
      · exact .inl ⟨_, _, rfl, rfl, congrArg EvalError.failure (List.cons.inj hnotes).1⟩

/-- Spelling out a vector where it stands for its components changes nothing but formulas of nodes.
Under either policy both expressions have the same values and, node apart, the same failures in the
same order, or both end in errors that are the same but for the node. -/
theorem SpellsOut.evaluate_spelledOut {symbol : String} {columns : List Column} {e e' : Expr}
    (h : SpellsOut symbol columns.length e e') (env : Environment)
    (hfind : env.find? symbol = some (.vector columns)) (hpos : 1 ≤ columns.length)
    (hlength : columns.length < 2 ^ 53) (policy : Policy) :
    (∃ error error', e.evaluate env policy = .error error ∧
      e'.evaluate env policy = .error error' ∧ error.withoutNode = error'.withoutNode) ∨
    ∃ values failures failures', e.evaluate env policy = .ok (values, failures) ∧
      e'.evaluate env policy = .ok (values, failures') ∧
      failures.map Failure.withoutNode = failures'.map Failure.withoutNode := by
  have hresembles : (e.attemptColumn ⟨env, none⟩).Resembles (e'.attemptColumn ⟨env, none⟩) :=
    Expr.attemptColumn_resembles hfind hpos hlength h
  rcases Policy.settle_of_resembles hresembles policy with
    ⟨error, error', hsettle, hsettle', herror⟩ |
    ⟨column, failures, failures', hsettle, hsettle', hfailures⟩
  · refine .inl ⟨error, error', ?_, ?_, herror⟩
    · rw [Expr.evaluate_eq, hsettle]
      rfl
    · rw [Expr.evaluate_eq, hsettle']
      rfl
  · refine .inr ⟨column.broadcast env.rows, failures, failures', ?_, ?_, hfailures⟩
    · rw [Expr.evaluate_eq, hsettle]
      rfl
    · rw [Expr.evaluate_eq, hsettle']
      rfl

/-- One over the greatest component of a vector, or over a scalar that is greater. -/
def Expr.overGreatest : Expr :=
  .divide (number 1) (.operation .max [.symbol "v", .symbol "x"])

/-- The same with the two components of the vector spelled out. -/
def Expr.overGreatestComponent : Expr :=
  .divide (number 1) (.operation .max [component "v" 1, component "v" 2, .symbol "x"])

/-- Two samples, for the first of which nothing is greater than zero. -/
def Environment.zeroFirst : Environment :=
  (empty 2).bindAll
    [("v", .vector [.samples #[0, 4], .constant (-1)]), ("x", .scalar (.constant (-2)))]

/-- The division by zero is found for the same sample. -/
theorem Expr.overGreatest_evaluate_spelledOut :
    SpellsOut "v" 2 overGreatest overGreatestComponent ∧
      ∃ values failures failures',
        overGreatest.evaluate .zeroFirst .perRow = .ok (values, failures) ∧
        overGreatestComponent.evaluate .zeroFirst .perRow = .ok (values, failures') ∧
        failures.map Failure.withoutNode = failures'.map Failure.withoutNode ∧
        failures.map Failure.sample = [some 0] := by
  have hspells : SpellsOut "v" 2 overGreatest overGreatestComponent :=
    .operation (.cons (.literal _)
      (.cons (.operation (.vector rfl (.cons (.symbol "x") .nil))) .nil))
  have hsamples : (overGreatest.evaluate .zeroFirst .perRow).toOption.map
      (fun outcome ↦ outcome.2.map Failure.sample) = some [some 0] := by
    decide +kernel
  refine ⟨hspells, ?_⟩
  rcases @SpellsOut.evaluate_spelledOut "v" [.samples #[0, 4], .constant (-1)] _ _ hspells
    .zeroFirst rfl (by decide) (by decide) .perRow with
    ⟨error, error', herror, -⟩ | ⟨values, failures, failures', hvalues, hvalues', hsame⟩
  · rw [herror] at hsamples
    cases hsamples
  · rw [hvalues] at hsamples
    exact ⟨values, failures, failures', hvalues, hvalues', hsame, Option.some.inj hsamples⟩

end Tradeoff
