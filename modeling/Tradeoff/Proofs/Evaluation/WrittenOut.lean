import Tradeoff.Proofs.Evaluation.Locality
import Tradeoff.Proofs.Evaluation.NotANumber

/-!
# Constants written out

A quantity that is the same for every sample is bound to a constant column, and an operation on
constant columns alone is computed once. Whether a constant is kept so or written out as one value
for each sample makes no difference to an expression: it has the same values, the same failures in
the same order or the same error (`Expr.evaluate_writeOut`). The exception is an index of a
component, which has to be the same for every sample, so that only a constant column will do
(`Expr.indexMentions`).

Two evaluations that differ in this way go along with each other step by step
(`Attempt.Matches`). The columns that they come to on the way may differ in form but not in their
values for the samples (`Column.SameRows`).
-/

namespace Tradeoff

/-! ### Writing out -/

/-- The binding with a scalar written out as one value for each of so many samples. -/
def Binding.writtenOut (rows : Nat) : Binding → Binding
  | scalar column => .scalar (.samples (column.broadcast rows))
  | vector components => .vector components
  | flag value => .flag value

/-- The map with the images of its entries. -/
def SymbolMap.mapEntries {α β : Type} (g : String → α → β) (m : SymbolMap α) : SymbolMap β :=
  ⟨m.entries.map fun entry ↦ (entry.1, g entry.1 entry.2), by
    rw [List.map_map]
    exact m.nodup⟩

theorem SymbolMap.find?_mapEntries {α β : Type} (g : String → α → β) (m : SymbolMap α)
    (symbol : String) : (m.mapEntries g).find? symbol = (m.find? symbol).map (g symbol) :=
  lookup_map g m.entries symbol

/-- The environment with the scalars of some symbols written out. -/
def Environment.writeOut (env : Environment) (symbols : List String) : Environment :=
  ⟨env.rows, env.bindings.mapEntries fun symbol binding ↦
    if symbol ∈ symbols then binding.writtenOut env.rows else binding⟩

theorem Environment.rows_writeOut (env : Environment) (symbols : List String) :
    (env.writeOut symbols).rows = env.rows := rfl

/-- The chosen symbols are bound to columns of values, and the others to what they were bound to. -/
theorem Environment.find?_writeOut (env : Environment) (symbols : List String) (symbol : String) :
    (env.writeOut symbols).find? symbol = (env.find? symbol).map fun binding ↦
      if symbol ∈ symbols then binding.writtenOut env.rows else binding :=
  SymbolMap.find?_mapEntries _ _ _

namespace Expr

mutual

/-- The symbols that an expression mentions inside the index of a component. -/
def indexMentions : Expr → List String
  | .operation .component [vector, index] => indexMentions vector ++ index.mentions
  | .operation _ args => indexMentionsList args
  | _ => []

/-- The symbols that a list of expressions mentions inside indices. -/
def indexMentionsList : List Expr → List String
  | [] => []
  | arg :: args => indexMentions arg ++ indexMentionsList args

end

/-- A symbol is mentioned in an index among the arguments if it is in one of them. -/
theorem mem_indexMentionsList {symbol : String} {args : List Expr} :
    symbol ∈ indexMentionsList args ↔ ∃ arg ∈ args, symbol ∈ arg.indexMentions := by
  induction args with
  | nil => simp [indexMentionsList]
  | cons arg args ih => simp [indexMentionsList, ih]

/-- Everything that the index of a component mentions counts. -/
theorem indexMentions_component (vector index : Expr) :
    (operation .component [vector, index]).indexMentions =
      vector.indexMentions ++ index.mentions := by
  rw [indexMentions]

/-- Any other operator only passes on what its arguments have in indices. -/
theorem indexMentions_operation {op : Operator} (hop : op ≠ .component) (args : List Expr) :
    (operation op args).indexMentions = indexMentionsList args := by
  rw [indexMentions]
  rintro _ _ rfl
  exact absurd rfl hop

end Expr

/-! ### Attempts that go along -/

/-- Two attempts take the same notes and end in the same error or in related values. -/
def Attempt.Matches {ν α β : Type} (R : α → β → Prop) (a : Attempt ν α) (b : Attempt ν β) : Prop :=
  a.notes = b.notes ∧
    match a.result, b.result with
    | .ok value, .ok value' => R value value'
    | .error error, .error error' => error = error'
    | _, _ => False

namespace Attempt

variable {ν α β γ δ : Type} {R : α → β → Prop} {S : γ → δ → Prop}

theorem Matches.of_eq {R : α → α → Prop} (hR : ∀ value, R value value) {a b : Attempt ν α}
    (h : a = b) : a.Matches R b := by
  subst h
  refine ⟨rfl, ?_⟩
  rcases a.result with error | value
  · rfl
  · exact hR value

theorem matches_succeed {value : α} {value' : β} (h : R value value') :
    (succeed value : Attempt ν α).Matches R (succeed value') := ⟨rfl, h⟩

theorem matches_fail (error : EvalError) :
    (fail error : Attempt ν α).Matches R (fail error : Attempt ν β) := ⟨rfl, rfl⟩

/-- Attempts in a row match if they do step by step. -/
theorem Matches.andThen {a : Attempt ν α} {b : Attempt ν β} {next : α → Attempt ν γ}
    {next' : β → Attempt ν δ} (h : a.Matches R b)
    (hnext : ∀ value value', R value value' → (next value).Matches S (next' value')) :
    (a.andThen next).Matches S (b.andThen next') := by
  obtain ⟨notes, error | value⟩ := a <;> obtain ⟨notes', error' | value'⟩ := b
  · exact h
  · exact h.2.elim
  · exact h.2.elim
  · obtain ⟨rfl, hvalue⟩ := h
    obtain ⟨hnotes, hresult⟩ := hnext value value' hvalue
    exact ⟨congrArg (notes ++ ·) hnotes, hresult⟩

end Attempt

/-- Under either policy, attempts that go along have the same failures and related values, or the
same error. -/
theorem Policy.settle_of_matches {α β : Type} {R : α → β → Prop} {a : Attempt Failure α}
    {b : Attempt Failure β} (h : a.Matches R b) (policy : Policy) :
    (∃ error, policy.settle a = .error error ∧ policy.settle b = .error error) ∨
      ∃ value value' failures, policy.settle a = .ok (value, failures) ∧
        policy.settle b = .ok (value', failures) ∧ R value value' := by
  obtain ⟨notes, result⟩ := a
  obtain ⟨notes', result'⟩ := b
  obtain ⟨rfl, hresult⟩ := h
  rcases result with error | value <;> rcases result' with error' | value'
  · obtain rfl : error = error' := hresult
    refine .inl ?_
    cases policy <;> cases notes <;> exact ⟨_, rfl, rfl⟩
  · exact hresult.elim
  · exact hresult.elim
  · cases policy with
    | failFast =>
      cases notes with
      | nil => exact .inr ⟨value, value', [], rfl, rfl, hresult⟩
      | cons f notes => exact .inl ⟨.failure f, rfl, rfl⟩
    | perRow => exact .inr ⟨value, value', _, rfl, rfl, hresult⟩

/-! ### The same values in every row -/

/-- Two columns have the same value for each of so many samples. -/
def Column.SameRows (rows : Nat) (column column' : Column) : Prop :=
  ∀ sample < rows, column.get sample = column'.get sample

theorem Column.SameRows.refl (rows : Nat) (column : Column) : column.SameRows rows column :=
  fun _ _ ↦ rfl

/-- A column that is written out has the same values for the samples. -/
theorem Column.sameRows_broadcast (rows : Nat) (column : Column) :
    (Column.samples (column.broadcast rows)).SameRows rows column := by
  intro sample hsample
  cases column with
  | constant value => simp [broadcast, get, hsample]
  | samples values => rfl

/-- Columns that fit and have the same values are written out in the same way. -/
theorem Column.SameRows.broadcast_eq {rows : Nat} {column column' : Column}
    (h : column.SameRows rows column') (hfits : column.Fits rows) (hfits' : column'.Fits rows) :
    column.broadcast rows = column'.broadcast rows := by
  refine Array.ext_getElem? fun sample ↦ ?_
  by_cases hsample : sample < rows
  · rw [hfits.getElem?_broadcast hsample, hfits'.getElem?_broadcast hsample, h sample hsample]
  · rw [Array.getElem?_eq_none (by rw [hfits.size_broadcast]; omega),
      Array.getElem?_eq_none (by rw [hfits'.size_broadcast]; omega)]

/-- Two values are scalars with the same values for each sample, or the same vector. -/
def Value.SameRows (rows : Nat) : Value → Value → Prop
  | scalar column, scalar column' => column.SameRows rows column'
  | vector symbol components, vector symbol' components' =>
    symbol = symbol' ∧ components = components'
  | _, _ => False

theorem Value.SameRows.refl (rows : Nat) (value : Value) : value.SameRows rows value := by
  cases value with
  | scalar column => exact Column.SameRows.refl rows column
  | vector symbol components => exact ⟨rfl, rfl⟩

/-- For a sample, such columns give the same numbers. -/
theorem map_get_of_sameRows {rows sample : Nat} (hsample : sample < rows)
    {columns columns' : List Column} (h : List.Forall₂ (Column.SameRows rows) columns columns') :
    columns.map (·.get sample) = columns'.map (·.get sample) := by
  induction h with
  | nil => rfl
  | cons hcolumn _ ih => rw [List.map_cons, List.map_cons, hcolumn sample hsample, ih]

theorem forall₂_sameRows_refl (rows : Nat) (columns : List Column) :
    List.Forall₂ (Column.SameRows rows) columns columns :=
  List.forall₂_same.mpr fun column _ ↦ Column.SameRows.refl rows column

/-! ### Steps -/

namespace Scene

variable {env : Environment} {field : Option String} {symbols : List String}

/-- A binding that is written out fits the samples if it did before. -/
theorem misfit?_writeOut (name : String) (column : Column) :
    misfit? ⟨env.writeOut symbols, field⟩ name column = misfit? ⟨env, field⟩ name column := by
  cases column <;> rfl

/-- A scalar is as long as the environment when it is written out, unless it was not before. -/
theorem misfit?_broadcast (scene : Scene) (name : String) (column : Column) :
    scene.misfit? name (.samples (column.broadcast scene.env.rows)) =
      scene.misfit? name column := by
  cases column with
  | constant value => exact if_pos Array.size_replicate
  | samples values => rfl

/-- Looking up a scalar gives its column if this fits the samples. -/
theorem lookup_scalar {scene : Scene} {name : String} {column : Column}
    (h : scene.env.find? name = some (.scalar column)) :
    scene.lookup name =
      match scene.misfit? name column with
      | some error => .fail error
      | none => .succeed (.scalar column) := by
  unfold lookup
  generalize scene.env.find? name = found at h ⊢
  subst h
  rfl

/-- Looking up a symbol comes to a value with the same rows. -/
theorem lookup_writeOut (name : String) :
    (lookup ⟨env.writeOut symbols, field⟩ name).Matches (Value.SameRows env.rows)
      (lookup ⟨env, field⟩ name) := by
  have hfind := env.find?_writeOut symbols name
  by_cases hchanged : name ∈ symbols ∧ ∃ column, env.find? name = some (.scalar column)
  · obtain ⟨hname, column, hcolumn⟩ := hchanged
    rw [hcolumn, Option.map_some, if_pos hname] at hfind
    have hmisfit := misfit?_broadcast ⟨env, field⟩ name column
    rw [lookup_scalar hfind, lookup_scalar hcolumn, misfit?_writeOut, hmisfit]
    rcases misfit? ⟨env, field⟩ name column with _ | error
    · exact Attempt.matches_succeed (column.sameRows_broadcast env.rows)
    · exact Attempt.matches_fail error
  -- Nothing but scalars is written out.
  · have hsame : (env.writeOut symbols).find? name = env.find? name := by
      rw [hfind]
      split
      · next hname =>
        rcases hbinding : env.find? name with _ | (column | components | flag)
        · rfl
        · exact absurd ⟨hname, column, hbinding⟩ hchanged
        · rfl
        · rfl
      · exact Option.map_id'
    exact Attempt.Matches.of_eq (Value.SameRows.refl env.rows)
      (lookup_congr (env.rows_writeOut symbols) hsame)

variable {env' : Environment} {rows : Nat}

/-- A vector is one in both forms, with the same name and components. -/
theorem needVector_matches (node : Expr) {value value' : Value} (h : value.SameRows rows value') :
    (needVector ⟨env', field⟩ node value).Matches Eq (needVector ⟨env, field⟩ node value') := by
  rcases value with column | ⟨name, components⟩ <;>
    rcases value' with column' | ⟨name', components'⟩
  · exact Attempt.matches_fail _
  · exact h.elim
  · exact h.elim
  · exact Attempt.matches_succeed h.2

/-- A number is one in both forms, with the same rows. -/
theorem needScalar_matches (node : Expr) {value value' : Value} (h : value.SameRows rows value') :
    (needScalar ⟨env', field⟩ node value).Matches (Column.SameRows rows)
      (needScalar ⟨env, field⟩ node value') := by
  rcases value with column | ⟨name, components⟩ <;>
    rcases value' with column' | ⟨name', components'⟩
  · exact Attempt.matches_succeed h
  · exact h.elim
  · exact h.elim
  · obtain ⟨rfl, rfl⟩ := h
    exact Attempt.matches_fail _

/-- What stands for the components of a vector has the same rows too. -/
theorem expand_matches (op : Operator) (node : Expr) {value value' : Value}
    (h : value.SameRows rows value') :
    (expand ⟨env', field⟩ op node value).Matches (List.Forall₂ (Column.SameRows rows))
      (expand ⟨env, field⟩ op node value') := by
  rcases value with column | ⟨name, components⟩ <;>
    rcases value' with column' | ⟨name', components'⟩
  · exact Attempt.matches_succeed (.cons h .nil)
  · exact h.elim
  · exact h.elim
  · obtain ⟨rfl, rfl⟩ := h
    exact Attempt.Matches.of_eq (forall₂_sameRows_refl rows) rfl

/-- Constants or not, an operation has an outcome for each sample, from the values for it. -/
theorem exists_applyRows (scene : Scene) (node : Expr) (op : Operator) (columns : List Column) :
    ∃ column, scene.applyRows node op columns =
        ⟨scene.rowFailures node fun sample ↦ faultOf? (op.apply (columns.map (·.get sample))),
          .ok column⟩ ∧
      ∀ sample < scene.env.rows,
        column.get sample = valueOf (op.apply (columns.map (·.get sample))) := by
  rcases hconstants : constants? columns with _ | args
  · refine ⟨_, applyRows_of_samples hconstants, fun sample hsample ↦ ?_⟩
    simp [Column.get, hsample]
  · refine ⟨.constant (valueOf (op.apply args)), ?_, fun sample _ ↦ ?_⟩
    · simp only [map_get_of_constants? hconstants]
      exact applyRows_of_constants hconstants
    · rw [map_get_of_constants? hconstants]
      rfl

/-- Applied row by row, an operator gives the same for each sample. If all columns are constant in
one of the forms only, it is computed once there and for each sample here. -/
theorem applyRows_matches (node : Expr) (op : Operator) {columns columns' : List Column}
    (h : List.Forall₂ (Column.SameRows env.rows) columns columns') :
    (applyRows ⟨env.writeOut symbols, field⟩ node op columns).Matches (Column.SameRows env.rows)
      (applyRows ⟨env, field⟩ node op columns') := by
  obtain ⟨column, heq, hget⟩ := exists_applyRows ⟨env.writeOut symbols, field⟩ node op columns
  obtain ⟨column', heq', hget'⟩ := exists_applyRows ⟨env, field⟩ node op columns'
  rw [heq, heq']
  refine ⟨?_, fun sample hsample ↦ ?_⟩
  · refine (rowFailures_of_rows_eq rfl node _).trans ?_
    refine rowFailures_congr node fun sample hsample ↦ ?_
    rw [map_get_of_sameRows hsample h]
  · rw [hget sample hsample, hget' sample hsample, map_get_of_sameRows hsample h]

end Scene

/-! ### Expressions -/

namespace Expr

variable {env : Environment} {field : Option String} {symbols : List String}

theorem attemptColumns_matches (op : Operator) {args : List Expr}
    (h : ∀ arg ∈ args, (arg.attempt ⟨env.writeOut symbols, field⟩).Matches
      (Value.SameRows env.rows) (arg.attempt ⟨env, field⟩)) :
    (attemptColumns ⟨env.writeOut symbols, field⟩ op args).Matches
      (List.Forall₂ (Column.SameRows env.rows)) (attemptColumns ⟨env, field⟩ op args) := by
  induction args with
  | nil => exact Attempt.matches_succeed .nil
  | cons arg args ih =>
    have hargs := ih fun next hnext ↦ h next (List.mem_cons_of_mem _ hnext)
    rw [attemptColumns_cons, attemptColumns_cons]
    refine (h arg List.mem_cons_self).andThen fun value value' hvalue ↦ ?_
    refine (Scene.expand_matches op arg hvalue).andThen fun columns columns' hcolumns ↦ ?_
    exact hargs.andThen fun rest rest' hrest ↦
      Attempt.matches_succeed (List.rel_append hcolumns hrest)

/-- An expression goes the same way whether constants outside of its indices are written out or
not. -/
theorem attempt_matches (e : Expr) (h : ∀ symbol ∈ symbols, symbol ∉ e.indexMentions) :
    (e.attempt ⟨env.writeOut symbols, field⟩).Matches (Value.SameRows env.rows)
      (e.attempt ⟨env, field⟩) := by
  induction e using attempt_induction with
  | number value => exact Attempt.matches_succeed (Column.SameRows.refl env.rows _)
  | bool value => exact Attempt.matches_fail _
  | symbol name => exact Scene.lookup_writeOut name
  | refused op args hrefused =>
    rw [attempt_refused _ hrefused, attempt_refused _ hrefused]
    exact Attempt.matches_fail _
  | component vector index ihvector ihindex =>
    simp only [indexMentions_component, List.mem_append, not_or] at h
    -- Nothing is written out in the index, so it is the same.
    have hindex : index.attempt ⟨env.writeOut symbols, field⟩ = index.attempt ⟨env, field⟩ := by
      refine attempt_congr (env.rows_writeOut symbols) index fun symbol hsymbol ↦ ?_
      rw [env.find?_writeOut, funext fun binding ↦ if_neg fun hmem ↦ (h symbol hmem).2 hsymbol]
      exact Option.map_id'
    rw [attempt_component, attempt_component, hindex]
    refine (ihvector fun symbol hmem ↦ (h symbol hmem).1).andThen fun value value' hvalue ↦ ?_
    refine (Scene.needVector_matches vector hvalue).andThen ?_
    rintro components _ rfl
    exact Attempt.Matches.of_eq (Value.SameRows.refl env.rows) rfl
  | applied op args hop haccepts ih =>
    rw [indexMentions_operation hop] at h
    rw [attempt_applied _ hop haccepts, attempt_applied _ hop haccepts]
    have hargs := attemptColumns_matches op fun arg harg ↦ ih arg harg fun symbol hmem hsymbol ↦
      h symbol hmem (mem_indexMentionsList.mpr ⟨arg, harg, hsymbol⟩)
    refine hargs.andThen fun columns columns' hcolumns ↦ ?_
    exact (Scene.applyRows_matches _ op hcolumns).andThen fun column column' hcolumn ↦
      Attempt.matches_succeed hcolumn

/-- Writing out constants that are not used for indices leaves the evaluation of an expression
exactly as it is: the same values, the same failures in the same order, or the same error. -/
theorem evaluate_writeOut (e : Expr) (env : Environment) (policy : Policy) {symbols : List String}
    (h : ∀ symbol ∈ symbols, symbol ∉ e.indexMentions) :
    e.evaluate (env.writeOut symbols) policy = e.evaluate env policy := by
  have hmatches : (e.attemptColumn ⟨env.writeOut symbols, none⟩).Matches (Column.SameRows env.rows)
      (e.attemptColumn ⟨env, none⟩) := by
    rw [attemptColumn_eq, attemptColumn_eq]
    exact (attempt_matches e h).andThen fun value value' hvalue ↦
      Scene.needScalar_matches e hvalue
  rcases Policy.settle_of_matches hmatches policy with
    ⟨error, hleft, hright⟩ | ⟨column, column', failures, hleft, hright, hcolumn⟩
  · rw [evaluate_eq, evaluate_eq, hleft, hright]
    rfl
  · have hfits : column.Fits env.rows :=
      (attemptColumn_ends _ e).of_ok (Policy.settle_eq_ok hleft)
    have hfits' : column'.Fits env.rows :=
      (attemptColumn_ends _ e).of_ok (Policy.settle_eq_ok hright)
    rw [evaluate_eq, evaluate_eq, hleft, hright, Except.map, Except.map]
    dsimp only
    rw [env.rows_writeOut, hcolumn.broadcast_eq hfits hfits']

end Expr

/-- One over a constant, plus a component of a vector whose index is another constant. -/
def Expr.quotientPlusComponent : Expr :=
  .add (.divide (number 1) (.symbol "c")) (.operation .component [.symbol "v", .symbol "i"])

/-- Two samples, for which the divisor is zero and the index one. -/
def Environment.zeroDivisor : Environment :=
  (empty 2).bindAll
    [("c", .scalar (.constant 0)), ("i", .scalar (.constant 1)),
      ("v", .vector [.samples #[3, 4]])]

/-- Whether the divisor is a constant or is zero for each sample, each sample fails. The index has
to remain a constant. -/
theorem Expr.quotientPlusComponent_evaluate_writeOut :
    "i" ∈ quotientPlusComponent.indexMentions ∧
      (∀ symbol ∈ ["c"], symbol ∉ quotientPlusComponent.indexMentions) ∧
      (Environment.zeroDivisor.writeOut ["c"]).find? "c" = some (.scalar (.samples #[0, 0])) ∧
      quotientPlusComponent.evaluate (Environment.zeroDivisor.writeOut ["c"]) .perRow =
        quotientPlusComponent.evaluate .zeroDivisor .perRow ∧
      (quotientPlusComponent.evaluate .zeroDivisor .perRow).toOption.map
        (fun outcome ↦ outcome.2.map Failure.sample) = some [some 0, some 1] := by
  have hindex : ∀ symbol ∈ ["c"], symbol ∉ quotientPlusComponent.indexMentions := by decide
  refine ⟨by decide, hindex, ?_, ?_, by decide +kernel⟩
  · rw [Environment.find?_writeOut]
    rfl
  · exact quotientPlusComponent.evaluate_writeOut .zeroDivisor .perRow hindex

end Tradeoff
