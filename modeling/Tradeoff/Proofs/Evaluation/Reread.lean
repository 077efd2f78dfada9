import Tradeoff.Proofs.Evaluation.Locality
import Tradeoff.Proofs.Evaluation.NormalForms
import Tradeoff.Proofs.Formula.RoundTrip

/-!
# Evaluating what was read back

What is read from the text of an expression has the same values as the expression, or both have no
value for the same reason (`Expr.evaluate_reread`).

Failures need not be at the same nodes. A sum of infinities of both signs, for one, fails where they
meet: in a sum within a sum that may be the inner one, which is gone when the text is read. But the
samples that fail are the same, as long as everything in the environment is a number: they are then
those without a value (`Expr.isNaNAt_iff_failed`).
-/

namespace Tradeoff

/-! ### Bindings that are used -/

namespace Scene

variable {scene : Scene}

theorem exists_of_lookup_eq_ok {symbol : String} {value : Value}
    (h : (scene.lookup symbol).result = .ok value) :
    ∃ binding, scene.env.find? symbol = some binding ∧ binding.Fits scene.env.rows := by
  unfold lookup at h
  rcases hfind : scene.env.find? symbol with _ | (column | components | flag) <;> rw [hfind] at h
  · cases h
  · rcases hmisfit : scene.misfit? symbol column with _ | error
    · exact ⟨_, rfl, misfit?_eq_none_iff.mp hmisfit⟩
    · simp only [hmisfit] at h
      cases h
  · rcases hmisfit : components.findSome? (scene.misfit? symbol) with _ | error
    · have hnone := List.findSome?_eq_none_iff.mp hmisfit
      exact ⟨_, rfl, fun column hmem ↦ misfit?_eq_none_iff.mp (hnone column hmem)⟩
    · simp only [hmisfit] at h
      cases h
  · cases h

end Scene

namespace Expr

variable {scene : Scene}

theorem exists_of_attemptColumns_eq_ok {op : Operator} {args : List Expr} {columns : List Column}
    (h : (attemptColumns scene op args).result = .ok columns) {arg : Expr} (harg : arg ∈ args) :
    ∃ value, (arg.attempt scene).result = .ok value := by
  induction args generalizing columns with
  | nil => cases harg
  | cons first args ih =>
    simp only [attemptColumns_cons, Attempt.result_andThen, bind_eq_ok_iff] at h
    obtain ⟨value, hvalue, _, -, _, hrest, -⟩ := h
    rcases List.mem_cons.mp harg with rfl | harg
    · exact ⟨value, hvalue⟩
    · exact ih hrest harg

/-- Whatever an expression with a value mentions is bound to columns that fit. -/
theorem exists_of_attempt_eq_ok {e : Expr} {value : Value}
    (h : (e.attempt scene).result = .ok value) {symbol : String} (hsymbol : symbol ∈ e.mentions) :
    ∃ binding, scene.env.find? symbol = some binding ∧ binding.Fits scene.env.rows := by
  induction e using attempt_induction generalizing value with
  | number value => cases hsymbol
  | bool value => cases hsymbol
  | symbol name =>
    obtain rfl : symbol = name := List.mem_singleton.mp hsymbol
    exact Scene.exists_of_lookup_eq_ok h
  | refused op args hrefused =>
    rw [attempt_refused _ hrefused] at h
    cases h
  | component vector index ihvector ihindex =>
    simp only [attempt_component, Attempt.result_andThen, bind_eq_ok_iff] at h
    obtain ⟨_, hvector, _, -, _, hindex, -⟩ := h
    obtain ⟨arg, harg, hmention⟩ := mem_mentionsList.mp hsymbol
    simp only [List.mem_cons, List.not_mem_nil, or_false] at harg
    rcases harg with rfl | rfl
    · exact ihvector hvector hmention
    · exact ihindex hindex hmention
  | applied op args hop haccepts ih =>
    simp only [attempt_applied _ hop haccepts, Attempt.result_andThen, bind_eq_ok_iff] at h
    obtain ⟨_, hcolumns, -⟩ := h
    obtain ⟨arg, harg, hmention⟩ := mem_mentionsList.mp hsymbol
    obtain ⟨_, hvalue⟩ := exists_of_attemptColumns_eq_ok hcolumns harg
    exact ih arg harg hvalue hmention

end Expr

/-! ### Bindings that fit -/

instance (rows : Nat) (column : Column) : Decidable (column.Fits rows) :=
  match column with
  | .constant _ => .isTrue trivial
  | .samples values => inferInstanceAs (Decidable (values.size = rows))

instance (rows : Nat) (binding : Binding) : Decidable (binding.Fits rows) :=
  match binding with
  | .scalar column => inferInstanceAs (Decidable (column.Fits rows))
  | .vector components => inferInstanceAs (Decidable (∀ column ∈ components, column.Fits rows))
  | .flag _ => .isTrue trivial

namespace Environment

/-- The environment with the bindings that fit. -/
def fitting (env : Environment) : Environment :=
  ⟨env.rows, ⟨env.bindings.entries.filter fun entry ↦ entry.2.Fits env.rows,
    env.bindings.nodup.sublist (List.filter_sublist.map _)⟩⟩

variable {env : Environment} {symbol : String} {binding : Binding}

theorem find?_fitting_eq_some_iff : env.fitting.find? symbol = some binding ↔
    env.find? symbol = some binding ∧ binding.Fits env.rows := by
  rw [find?, SymbolMap.find?_eq_some_iff, find?, SymbolMap.find?_eq_some_iff, fitting,
    List.mem_filter, decide_eq_true_iff]

end Environment

/-- An expression with a value uses none of the bindings that do not fit. -/
theorem Expr.attemptColumn_fitting {env : Environment} {field : Option String} {e : Expr}
    {column : Column} (h : (e.attemptColumn ⟨env, field⟩).result = .ok column) :
    e.attemptColumn ⟨env.fitting, field⟩ = e.attemptColumn ⟨env, field⟩ := by
  rw [attemptColumn_eq, Attempt.result_andThen] at h
  obtain ⟨value, hvalue, -⟩ := bind_eq_ok_iff.mp h
  have hrows : env.fitting.rows = env.rows := rfl
  refine attemptColumn_congr hrows fun symbol hsymbol ↦ ?_
  obtain ⟨binding, hfind, hfits⟩ := exists_of_attempt_eq_ok hvalue hsymbol
  exact (Environment.find?_fitting_eq_some_iff.mpr ⟨hfind, hfits⟩).trans hfind.symm

/-! ### Samples that fail -/

/-- The column has a value that is not a number. -/
def Column.HoldsNaN : Column → Prop
  | constant value => value.isNaN
  | samples values => ∃ value ∈ values, value.isNaN

theorem Column.Fits.holdsNaN {column : Column} {rows sample : Nat} (h : column.Fits rows)
    (hsample : sample < rows) (hisNaN : column.IsNaNAt sample) : column.HoldsNaN := by
  cases column with
  | constant value => exact hisNaN
  | samples values =>
    have hsize : sample < values.size := lt_of_lt_of_eq hsample h.symm
    refine ⟨values[sample], Array.getElem_mem hsize, ?_⟩
    simpa [IsNaNAt, get, hsize] using hisNaN

namespace Environment

/-- All that the environment binds are numbers. -/
def HoldsNumbers (env : Environment) : Prop := ∀ symbol, ¬env.Has Column.HoldsNaN symbol

theorem HoldsNumbers.not_has_fitting {env : Environment} (h : env.HoldsNumbers) {sample : Nat}
    (hsample : sample < env.rows) (symbol : String) :
    ¬env.fitting.Has (Column.IsNaNAt sample) symbol := by
  rintro ⟨binding, hfind, hhas⟩
  obtain ⟨hfind, hfits⟩ := find?_fitting_eq_some_iff.mp hfind
  refine h symbol ⟨binding, hfind, ?_⟩
  cases binding with
  | scalar column => exact hfits.holdsNaN hsample hhas
  | vector components =>
    obtain ⟨column, hmem, hcolumn⟩ := hhas
    exact ⟨column, hmem, (hfits column hmem).holdsNaN hsample hcolumn⟩
  | flag value => exact hhas

end Environment

namespace Expr

variable {env : Environment} {field : Option String} {e : Expr} {column : Column}

/-- Where all that is bound are numbers, the samples without a value are those that fail. -/
theorem isNaNAt_iff_failed (henv : env.HoldsNumbers) (he : e.FiniteNumbers)
    (h : (e.attemptColumn ⟨env, field⟩).result = .ok column) {sample : Nat}
    (hsample : sample < env.rows) : column.IsNaNAt sample ↔
      ∃ f ∈ (e.attemptColumn ⟨env, field⟩).notes, f.sample = some sample := by
  have hhas := henv.not_has_fitting hsample
  have hvectors (symbol : String) (components : List Column)
      (hfind : env.fitting.find? symbol = some (.vector components)) (operand : Column)
      (hmem : operand ∈ components) : ¬operand.IsNaNAt sample := fun hisNaN ↦
    hhas symbol ⟨_, hfind, operand, hmem, hisNaN⟩
  have hliterals (value : Float) (hvalue : number value ∈ e.nodes) : ¬value.isNaN := by
    rw [(isNaN_isInf_of_isFinite (he value hvalue)).1]
    exact Bool.false_ne_true
  have hfitting := attemptColumn_fitting h
  rw [← hfitting] at h ⊢
  have hinherits : Scene.Inherits ⟨env.fitting, field⟩ (Column.IsNaNAt sample)
      (·.sample = some sample) := Scene.inherits_isNaNAt hsample hvectors
  rw [attemptColumn_passes hinherits hliterals column h]
  exact or_iff_left fun ⟨name, _, hisNaN⟩ ↦ hhas name hisNaN

/-- The samples of the failures to report are told by the column. -/
theorem mem_samples_iff (henv : env.HoldsNumbers) (he : e.FiniteNumbers)
    (h : (e.attemptColumn ⟨env, field⟩).result = .ok column) {sample : Option Nat} :
    sample ∈ (firstPerSample [] (e.attemptColumn ⟨env, field⟩).notes).map Failure.sample ↔
      ∃ index < env.rows, sample = some index ∧ column.IsNaNAt index := by
  rw [List.mem_map, exists_mem_firstPerSample, and_iff_right List.not_mem_nil]
  constructor
  · rintro ⟨f, hf, rfl⟩
    obtain ⟨-, index, hindex, hsample⟩ := e.attemptColumn_places ⟨env, field⟩ f hf
    exact ⟨index, hindex, hsample, (isNaNAt_iff_failed henv he h hindex).mpr ⟨f, hf, hsample⟩⟩
  · rintro ⟨index, hindex, rfl, hisNaN⟩
    exact (isNaNAt_iff_failed henv he h hindex).mp hisNaN

/-! ### What is read back -/

/-- Where failures are reported, an expression ends in a value or an error as its attempt does. -/
theorem evaluate_of_perRow (e : Expr) (env : Environment) : e.evaluate env .perRow =
    (e.attemptColumn ⟨env, none⟩).result.map fun column ↦
      (column.broadcast env.rows, firstPerSample [] (e.attemptColumn ⟨env, none⟩).notes) := by
  rw [evaluate_eq]
  obtain ⟨notes, error | column⟩ := e.attemptColumn ⟨env, none⟩ <;> rfl

/-- The expression read from the text of an expression has the same values, or both end in errors
that differ in the node at most. If all that is bound are numbers, the same samples fail. -/
theorem evaluate_reread {e e' : Expr} (h : e.Printable) (hread : parse e.text = .ok e')
    (env : Environment) :
    (∃ error error', e.evaluate env .perRow = .error error ∧
      e'.evaluate env .perRow = .error error' ∧ error.withoutNode = error'.withoutNode) ∨
    ∃ values failures failures', e.evaluate env .perRow = .ok (values, failures) ∧
      e'.evaluate env .perRow = .ok (values, failures') ∧
      (env.HoldsNumbers → ∀ sample,
        sample ∈ failures.map Failure.sample ↔ sample ∈ failures'.map Failure.sample) := by
  obtain ⟨-, rfl⟩ := (parse_text_eq_ok_iff h).mp hread
  simp only [evaluate_of_perRow]
  rcases Attempt.cases_of_outcome_eq (h.outcome_normalize ⟨env, none⟩).symm with
    ⟨error, error', hresult, hresult', herror⟩ | ⟨column, hresult, hresult'⟩
  · exact .inl ⟨error, error', by rw [hresult]; rfl, by rw [hresult']; rfl, herror⟩
  · refine .inr ⟨_, _, _, by rw [hresult]; rfl, by rw [hresult']; rfl, fun henv sample ↦ ?_⟩
    rw [mem_samples_iff henv h.finiteNumbers hresult,
      mem_samples_iff henv h.isNormal.printable.finiteNumbers hresult']

end Expr

/-- A sum within a sum. -/
def Expr.threeTerms : Expr := .add (.add (.symbol "a") (.symbol "b")) (.symbol "c")

/-- Two samples. In the second one infinities of both signs meet. -/
def Environment.oppositeInfinities : Environment :=
  (empty 2).bindAll
    [("a", .scalar (.samples #[1, 1 / 0])), ("b", .scalar (.samples #[1, -1 / 0])),
      ("c", .scalar (.constant 1))]

theorem Environment.holdsNumbers_oppositeInfinities : oppositeInfinities.HoldsNumbers := by
  rintro symbol ⟨binding, hfind, hhas⟩
  have hmem : (symbol, binding) ∈ oppositeInfinities.bindings.entries :=
    SymbolMap.find?_eq_some_iff.mp hfind
  have hentries : oppositeInfinities.bindings.entries =
      [("a", .scalar (.samples #[1, 1 / 0])), ("b", .scalar (.samples #[1, -1 / 0])),
        ("c", .scalar (.constant 1))] := rfl
  simp only [hentries, List.mem_cons, Prod.mk.injEq, List.not_mem_nil, or_false] at hmem
  rcases hmem with ⟨-, rfl⟩ | ⟨-, rfl⟩ | ⟨-, rfl⟩
  · exact absurd hhas (show ¬∃ value ∈ #[1, 1 / 0], Float.isNaN value by decide +kernel)
  · exact absurd hhas (show ¬∃ value ∈ #[1, -1 / 0], Float.isNaN value by decide +kernel)
  · exact absurd hhas (show ¬Float.isNaN 1 by decide +kernel)

/-- The second sample fails at the inner sum, and at the whole sum when it has been read back. -/
theorem Expr.threeTerms_evaluate_reread :
    ∃ read values failures failures', threeTerms.Printable ∧ parse threeTerms.text = .ok read ∧
      threeTerms.evaluate .oppositeInfinities .perRow = .ok (values, failures) ∧
      read.evaluate .oppositeInfinities .perRow = .ok (values, failures') ∧
      failures.map (·.node) = ["a + b"] ∧ failures'.map (·.node) = ["a + b + c"] ∧
      Environment.oppositeInfinities.HoldsNumbers ∧
      ∀ sample, sample ∈ failures.map Failure.sample ↔ sample ∈ failures'.map Failure.sample := by
  have hprintable : threeTerms.Printable := by
    simp only [threeTerms, add, printable_operation, List.forall_mem_cons, List.not_mem_nil,
      false_implies, implies_true, and_true]
    exact ⟨rfl, ⟨rfl, printable_symbol rfl, printable_symbol rfl⟩, printable_symbol rfl⟩
  have hread : parse threeTerms.text =
      .ok (.operation .add [.symbol "a", .symbol "b", .symbol "c"]) :=
    (parse_text_eq_ok_iff hprintable).mpr ⟨by decide, rfl⟩
  have hinner : (threeTerms.evaluate .oppositeInfinities .perRow).toOption.map
      (fun outcome ↦ outcome.2.map Failure.node) = some ["a + b"] := by decide +kernel
  have houter : ((operation .add [.symbol "a", .symbol "b", .symbol "c"]).evaluate
      .oppositeInfinities .perRow).toOption.map
      (fun outcome ↦ outcome.2.map Failure.node) = some ["a + b + c"] := by decide +kernel
  rcases evaluate_reread hprintable hread .oppositeInfinities with
    ⟨_, _, herror, -⟩ | ⟨values, failures, failures', hvalues, hvalues', hsamples⟩
  · rw [herror] at hinner
    cases hinner
  · rw [hvalues] at hinner
    rw [hvalues'] at houter
    have hnumbers := Environment.holdsNumbers_oppositeInfinities
    exact ⟨_, values, failures, failures', hprintable, hread, hvalues, hvalues',
      Option.some.inj hinner, Option.some.inj houter, hnumbers, hsamples hnumbers⟩

end Tradeoff
