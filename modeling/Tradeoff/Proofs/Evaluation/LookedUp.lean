import Tradeoff.Proofs.Evaluation.Locality

/-!
# What a successful evaluation looks up

The symbols of an expression are collected without evaluating it. An evaluation could look up fewer
of them: it ends at its first error, refuses an operation before its arguments, and takes the
components of a vector in the place of the vector. A successful evaluation looks up all of them. To
see this, it is compared with the evaluation in an environment that lacks a single binding: if the
expression mentions the lacking symbol, this evaluation ends in the error of the unknown symbol
after a part of the same failures (`Expr.attempt_endsAt`).

With what is known of errors (`Expr.attemptColumn_ends`) and of environments that agree
(`Expr.attemptColumn_congr`) the collected symbols are exactly those that a successful evaluation
looks up (`Expr.evaluate_symbols`).
-/

namespace Tradeoff

/-! ### Attempts that end early -/

namespace Attempt

variable {ν α β : Type} {error : EvalError} {a b : Attempt ν α} {next next' : α → Attempt ν β}

/-- The attempt goes as another one does and ends on the way in an error. -/
def EndsAt (error : EvalError) (a b : Attempt ν α) : Prop :=
  a.notes <+: b.notes ∧ a.result = .error error

theorem endsAt_fail (error : EvalError) (b : Attempt ν α) : EndsAt error (fail error) b :=
  ⟨List.nil_prefix, rfl⟩

/-- After the error nothing is attempted. -/
theorem EndsAt.andThen (h : EndsAt error a b) :
    EndsAt error (a.andThen next') (b.andThen next) := by
  obtain ⟨notes, result⟩ := a
  obtain ⟨hnotes, rfl⟩ : notes <+: b.notes ∧ result = .error error := h
  refine ⟨hnotes.trans ?_, rfl⟩
  obtain ⟨notes, error | value⟩ := b
  · exact List.prefix_rfl
  · exact List.prefix_append _ _

/-- Up to a value both attempts can be the same. -/
theorem EndsAt.after {value : α} (ha : a.result = .ok value)
    (h : EndsAt error (next' value) (next value)) :
    EndsAt error (a.andThen next') (a.andThen next) := by
  obtain ⟨notes, result⟩ := a
  obtain rfl : result = .ok value := ha
  exact ⟨(List.prefix_append_right_inj notes).mpr h.1, h.2⟩

end Attempt

/-- A success without the failures that a policy makes errors of has no failures, and neither has
an attempt that ends on the way. -/
theorem Policy.settle_of_endsAt {α : Type} {policy : Policy} {error : EvalError}
    {a b : Attempt Failure α} {outcome : α × List Failure} (h : Attempt.EndsAt error a b)
    (hsettle : policy.settle b = .ok outcome) : policy.settle a = .error error := by
  obtain ⟨notes, result⟩ := a
  obtain ⟨hnotes, rfl⟩ : notes <+: b.notes ∧ result = .error error := h
  cases policy with
  | perRow => rfl
  | failFast =>
    obtain ⟨_ | ⟨f, failures⟩, result⟩ := b
    · obtain rfl := List.prefix_nil.mp hnotes
      rfl
    · cases hsettle

/-! ### A lacking binding -/

/-- The environment has the bindings of another one, except that it has none of a symbol. -/
structure Environment.Lacks (env' : Environment) (symbol : String) (env : Environment) : Prop where
  rows : env.rows = env'.rows
  unbound : env'.find? symbol = none
  others : ∀ other, other ≠ symbol → env.find? other = env'.find? other

namespace Expr

variable {env env' : Environment} {field : Option String} {symbol : String} {e : Expr}

/-- The error of a symbol that an expression mentions and that is not bound. -/
def unknown (field : Option String) (symbol : String) : EvalError :=
  .unknownSymbol symbol (field.getD "<expression>")

theorem attempt_eq_of_lacks (hlacks : env'.Lacks symbol env) (h : symbol ∉ e.mentions) :
    e.attempt ⟨env', field⟩ = e.attempt ⟨env, field⟩ :=
  (attempt_congr hlacks.rows e fun other hother ↦
    hlacks.others other fun heq ↦ h (heq ▸ hother)).symm

theorem attemptColumns_endsAt (op : Operator) (hlacks : env'.Lacks symbol env) {args : List Expr}
    {columns : List Column} (hok : (attemptColumns ⟨env, field⟩ op args).result = .ok columns)
    (h : ∃ arg ∈ args, symbol ∈ arg.mentions)
    (ih : ∀ arg ∈ args, ∀ value, (arg.attempt ⟨env, field⟩).result = .ok value →
      symbol ∈ arg.mentions →
        Attempt.EndsAt (unknown field symbol) (arg.attempt ⟨env', field⟩)
          (arg.attempt ⟨env, field⟩)) :
    Attempt.EndsAt (unknown field symbol) (attemptColumns ⟨env', field⟩ op args)
      (attemptColumns ⟨env, field⟩ op args) := by
  induction args generalizing columns with
  | nil =>
    obtain ⟨arg, harg, -⟩ := h
    cases harg
  | cons arg args ihargs =>
    rw [attemptColumns_cons, attemptColumns_cons]
    simp only [attemptColumns_cons, Attempt.result_andThen, bind_eq_ok_iff] at hok
    obtain ⟨value, hvalue, expanded, hexpanded, rest, hrest, -⟩ := hok
    by_cases harg : symbol ∈ arg.mentions
    · exact (ih arg List.mem_cons_self value hvalue harg).andThen
    · rw [attempt_eq_of_lacks hlacks harg]
      refine Attempt.EndsAt.after hvalue (Attempt.EndsAt.after hexpanded ?_)
      refine (ihargs hrest ?_ fun next hnext ↦ ih next (List.mem_cons_of_mem _ hnext)).andThen
      obtain ⟨other, hother, hmentions⟩ := h
      rcases List.mem_cons.mp hother with rfl | hother
      · exact absurd hmentions harg
      · exact ⟨other, hother, hmentions⟩

/-- Without the binding of a symbol that it mentions, an expression that had a value before ends in
the error of this symbol. -/
theorem attempt_endsAt (hlacks : env'.Lacks symbol env) {value : Value}
    (hok : (e.attempt ⟨env, field⟩).result = .ok value) (h : symbol ∈ e.mentions) :
    Attempt.EndsAt (unknown field symbol) (e.attempt ⟨env', field⟩) (e.attempt ⟨env, field⟩) := by
  induction e using attempt_induction generalizing value with
  | number value | bool value => cases h
  | symbol name =>
    obtain rfl := List.mem_singleton.mp h
    have hlookup : (Expr.symbol symbol).attempt ⟨env', field⟩ = .fail (unknown field symbol) := by
      rw [attempt, Scene.lookup, hlacks.unbound]
      rfl
    rw [hlookup]
    exact Attempt.endsAt_fail _ _
  | refused op args hrefused =>
    rw [attempt_refused _ hrefused] at hok
    cases hok
  | component vector index ihvector ihindex =>
    simp only [attempt_component, Attempt.result_andThen, bind_eq_ok_iff] at hok
    obtain ⟨vectorValue, hvector, components, hcomponents, position, hindex, -⟩ := hok
    rw [attempt_component, attempt_component]
    by_cases hmentions : symbol ∈ vector.mentions
    · exact (ihvector hvector hmentions).andThen
    · rw [attempt_eq_of_lacks hlacks hmentions]
      refine Attempt.EndsAt.after hvector (Attempt.EndsAt.after hcomponents ?_)
      obtain ⟨arg, harg, hmem⟩ := mem_mentionsList.mp h
      rcases List.mem_cons.mp harg with rfl | harg
      · exact absurd hmem hmentions
      · obtain rfl := List.mem_singleton.mp harg
        exact (ihindex hindex hmem).andThen
  | applied op args hop haccepts ih =>
    simp only [attempt_applied _ hop haccepts, Attempt.result_andThen, bind_eq_ok_iff] at hok
    obtain ⟨columns, hcolumns, -⟩ := hok
    rw [attempt_applied _ hop haccepts, attempt_applied _ hop haccepts]
    exact (attemptColumns_endsAt op hlacks hcolumns (mem_mentionsList.mp h)
      fun arg harg _ hvalue ↦ ih arg harg hvalue).andThen

theorem attemptColumn_endsAt (hlacks : env'.Lacks symbol env) {column : Column}
    (hok : (e.attemptColumn ⟨env, field⟩).result = .ok column) (h : symbol ∈ e.mentions) :
    Attempt.EndsAt (unknown field symbol) (e.attemptColumn ⟨env', field⟩)
      (e.attemptColumn ⟨env, field⟩) := by
  rw [attemptColumn_eq, Attempt.result_andThen, bind_eq_ok_iff] at hok
  obtain ⟨value, hvalue, -⟩ := hok
  exact (attempt_endsAt hlacks hvalue h).andThen

/-- A symbol that is looked up for a value is bound. -/
theorem exists_find?_of_attemptColumn {column : Column}
    (hok : (e.attemptColumn ⟨env, field⟩).result = .ok column) (h : symbol ∈ e.mentions) :
    ∃ binding, env.find? symbol = some binding := by
  refine Option.ne_none_iff_exists'.mp fun hnone ↦ ?_
  -- The environment lacks the symbol itself, so that the evaluation ends in an error.
  have hlacks : env.Lacks symbol env := ⟨rfl, hnone, fun _ _ ↦ rfl⟩
  cases hok.symm.trans (attemptColumn_endsAt hlacks hok h).2

theorem mem_symbols_iff : symbol ∈ e.symbols ↔ symbol ∈ e.mentions := mem_sortSymbols

/-- What an evaluation looks up. Environments of the same length with the same bindings of the
symbols of an expression give the same result. A symbol that is said to be unknown is one of the
expression that is not bound. If there is a value, all symbols of the expression are bound, and each
of them is needed: where just this one lacks, it is said to be unknown, while any other symbol can
lack without a difference. -/
theorem evaluate_symbols (e : Expr) (env : Environment) (policy : Policy) :
    (∀ env' : Environment, env'.rows = env.rows →
      (∀ symbol ∈ e.symbols, env'.find? symbol = env.find? symbol) →
        e.evaluate env' policy = e.evaluate env policy) ∧
    (∀ symbol field, e.evaluate env policy = .error (.unknownSymbol symbol field) →
      symbol ∈ e.symbols ∧ env.find? symbol = none) ∧
    ∀ outcome, e.evaluate env policy = .ok outcome →
      (∀ symbol ∈ e.symbols, ∃ binding, env.find? symbol = some binding) ∧
      ∀ (symbol : String) (env' : Environment), env'.rows = env.rows →
        env'.find? symbol = none →
        (∀ other, other ≠ symbol → env'.find? other = env.find? other) →
          e.evaluate env' policy =
            if symbol ∈ e.symbols then .error (.unknownSymbol symbol "<expression>")
            else .ok outcome := by
  have hcongr (env' : Environment) (hrows : env'.rows = env.rows)
      (h : ∀ symbol ∈ e.symbols, env'.find? symbol = env.find? symbol) :
      e.evaluate env' policy = e.evaluate env policy := by
    rw [evaluate_eq, evaluate_eq, hrows,
      attemptColumn_congr hrows fun symbol hsymbol ↦ h symbol (mem_symbols_iff.mpr hsymbol)]
  refine ⟨hcongr, fun symbol field h ↦ ?_, fun outcome h ↦ ?_⟩
  · rcases Policy.settle_eq_error (evaluate_eq_error_iff.mp h) with ⟨f, hf⟩ | hresult
    · cases hf
    · have hends := (attemptColumn_ends ⟨env, none⟩ e).of_error hresult
      exact ⟨mem_symbols_iff.mpr hends.1, Environment.find?_eq_none_iff.mpr hends.2⟩
  · obtain ⟨column, hsettle, -⟩ := evaluate_eq_ok_iff.mp h
    have hok := Policy.settle_eq_ok hsettle
    refine ⟨fun symbol hsymbol ↦
      exists_find?_of_attemptColumn hok (mem_symbols_iff.mp hsymbol), ?_⟩
    intro symbol env' hrows hunbound hothers
    split
    · next hsymbol =>
      have hlacks : env'.Lacks symbol env :=
        ⟨hrows.symm, hunbound, fun other hother ↦ (hothers other hother).symm⟩
      exact evaluate_eq_error_iff.mpr (Policy.settle_of_endsAt
        (attemptColumn_endsAt hlacks hok (mem_symbols_iff.mp hsymbol)) hsettle)
    · next hsymbol =>
      rw [← h]
      exact hcongr env' hrows fun other hother ↦
        hothers other fun heq ↦ hsymbol (heq ▸ hother)

/-- A sum with a component of a vector. -/
def sumWithComponent : Expr := .add (.symbol "x") (.component "v" 2)

/-- The sum has a value for each of two samples where both symbols are bound, whatever else is.
Without the vector it has none; the vector is one of its symbols. -/
theorem sumWithComponent_evaluate :
    let scalar : String × Binding := ("x", .scalar (.samples #[1, 2]))
    let vector : String × Binding := ("v", .vector [.constant 3, .constant 4])
    let env := (Environment.empty 2).bindAll [scalar, vector]
    sumWithComponent.evaluate env .failFast = .ok (#[5, 6], []) ∧
    sumWithComponent.evaluate (env.bind "y" (.flag true)) .failFast = .ok (#[5, 6], []) ∧
    (∀ symbol ∈ sumWithComponent.symbols, ∃ binding, env.find? symbol = some binding) ∧
    sumWithComponent.evaluate ((Environment.empty 2).bindAll [scalar]) .failFast =
      .error (.unknownSymbol "v" "<expression>") ∧
    "v" ∈ sumWithComponent.symbols := by
  intro scalar vector env
  have hok : sumWithComponent.evaluate env .failFast = .ok (#[5, 6], []) := by
    have hsome : (sumWithComponent.evaluate env .failFast).toOption = some (#[5, 6], []) := by
      decide +kernel
    rcases h : sumWithComponent.evaluate env .failFast with error | outcome
    · rw [h] at hsome
      cases hsome
    · rw [h] at hsome
      exact congrArg Except.ok (Option.some.inj hsome)
  have hsymbols : "v" ∈ sumWithComponent.symbols := by decide +kernel
  obtain ⟨hsame, -, hfound⟩ := evaluate_symbols sumWithComponent env .failFast
  obtain ⟨hbound, hlacking⟩ := hfound _ hok
  have hunknown := hlacking "v" ((Environment.empty 2).bindAll [scalar]) rfl (by decide +kernel)
    fun other hother ↦ ?_
  · rw [if_pos hsymbols] at hunknown
    obtain ⟨-, honly, -⟩ := evaluate_symbols sumWithComponent
      ((Environment.empty 2).bindAll [scalar]) .failFast
    refine ⟨hok, ?_, hbound, hunknown, (honly "v" _ hunknown).1⟩
    rw [hsame (env.bind "y" (.flag true)) rfl, hok]
    decide +kernel
  · show _ = (((Environment.empty 2).bindAll [scalar]).bindings.set "v" vector.2).find? other
    rw [SymbolMap.find?_set, if_neg hother]
    rfl

end Expr

end Tradeoff
