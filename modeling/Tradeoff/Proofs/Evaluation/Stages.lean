import Tradeoff.Evaluation.Run
import Tradeoff.Proofs.Evaluation.Policy

/-!
# The results of stages

The moments that an evaluation notes on its way have no influence on how it goes on. Here the
results are told without them. What the fields of a stage contribute depends only on the bindings
before the stage (`contributions`), and a stage turns the contributions into new columns and new
bindings (`Problem.advance`). A run through stages is a run through the first of them, and then
through the others (`Problem.runStages_append`).
-/

namespace Tradeoff

/-! ### One result after another -/

section Results

variable {ε α β : Type} {x : Except ε α} {error : ε} {value : β}

/-- A computation in steps succeeds if all of its steps do. -/
theorem bind_eq_ok_iff {f : α → Except ε β} :
    x.bind f = .ok value ↔ ∃ a, x = .ok a ∧ f a = .ok value := by
  cases x <;> simp [Except.bind]

/-- A computation in steps fails in its first step or in what comes after it. -/
theorem bind_eq_error_iff {f : α → Except ε β} :
    x.bind f = .error error ↔ x = .error error ∨ ∃ a, x = .ok a ∧ f a = .error error := by
  cases x <;> simp [Except.bind]

theorem map_eq_ok_iff {f : α → β} : x.map f = .ok value ↔ ∃ a, x = .ok a ∧ f a = value := by
  cases x <;> simp [Except.map]

theorem map_eq_error_iff {f : α → β} : x.map f = .error error ↔ x = .error error := by
  cases x <;> simp [Except.map]

/-- Where every element has a result, so has the list. -/
theorem mapM_eq_some_map {f : α → Option β} {g : α → β} {xs : List α}
    (h : ∀ x ∈ xs, f x = some (g x)) : xs.mapM f = some (xs.map g) := by
  induction xs with
  | nil => rfl
  | cons x xs ih =>
    rw [List.mapM_cons, h x List.mem_cons_self, ih fun y hy ↦ h y (List.mem_cons_of_mem _ hy)]
    rfl

end Results

/-! ### Fields -/

theorem Field.contribute_constant (env : Environment) (policy : Policy) (c : Constant) :
    (constant c).contribute env policy = .ok ⟨[(c.symbol, c.value.binding)], []⟩ := rfl

/-- A field with an expression contributes the column of its expression, and the failures to report.
-/
theorem Field.contribute_of_expr? {field : Field} {e : Expr} (h : field.expr? = some e)
    (env : Environment) (policy : Policy) :
    field.contribute env policy =
      (policy.settle (e.attemptColumn ⟨env, some field.symbol⟩)).map fun settled ↦
        ⟨field.bindings settled.1, settled.2⟩ := by
  have hconstant : ∀ c, field ≠ .constant c := by
    rintro c rfl
    cases h
  rw [contribute]
  · simp only [h, Expr.computeColumn_eq]
    rcases policy.settle (e.attemptColumn ⟨env, some field.symbol⟩) with error | settled <;> rfl
  · exact hconstant

/-- An objective without an expression cannot be evaluated. -/
theorem Field.contribute_of_no_expr? {field : Field} (h : field.expr? = none)
    (hconstant : ∀ c, field ≠ .constant c) (env : Environment) (policy : Policy) :
    field.contribute env policy = .error (.dataBasedObjective field.symbol) := by
  rw [contribute]
  · simp only [h]
  · exact hconstant

/-- A field has an expression, is a constant or has values that are stored elsewhere. -/
theorem Field.expr?_cases (field : Field) :
    (∃ e, field.expr? = some e) ∨ (∃ c, field = .constant c) ∨
      (field.expr? = none ∧ ∀ c, field ≠ .constant c) := by
  rcases hexpr : field.expr? with _ | e
  · by_cases hconstant : ∃ c, field = .constant c
    · exact .inr (.inl hconstant)
    · exact .inr (.inr ⟨rfl, fun c heq ↦ hconstant ⟨c, heq⟩⟩)
  · exact .inl ⟨e, rfl⟩

/-- What fields contribute to an evaluation, or the error of the first that has one. -/
def contributions (env : Environment) (policy : Policy) :
    List Field → Except EvalError (List Contribution)
  | [] => .ok []
  | field :: fields =>
    (field.contribute env policy).bind fun contribution ↦
      (contributions env policy fields).map (contribution :: ·)

/-- A result with more failures. -/
def Evaluation.recordAll (result : Evaluation) (failures : List Failure) : Evaluation :=
  { result with latestFailures := failures.reverse ++ result.latestFailures }

/-- Failures go on record one after the other. -/
theorem Evaluation.recordAll_append (result : Evaluation) (failures more : List Failure) :
    result.recordAll (failures ++ more) = (result.recordAll failures).recordAll more := by
  simp [recordAll]

/-- Whatever the moments are, in the end all failures are on record. -/
theorem result_recordFailures (stage : Stage) (soFar : Evaluation) (failures : List Failure) :
    (recordFailures stage soFar failures).result = .ok (soFar.recordAll failures) := by
  induction failures generalizing soFar with
  | nil => rfl
  | cons failure failures ih =>
    rw [recordFailures, Attempt.result_andThen, Except.bind, ih]
    simp [Evaluation.record, Evaluation.recordAll]

/-- Whatever the moments are, the fields of a stage put their failures on record and give their
bindings. -/
theorem result_runFields (stage : Stage) (env : Environment) (policy : Policy) (soFar : Evaluation)
    (fields : List Field) :
    (runFields stage env policy soFar fields).result =
      (contributions env policy fields).map fun cs ↦
        (soFar.recordAll (cs.flatMap (·.failures)), cs.flatMap (·.bindings)) := by
  induction fields generalizing soFar with
  | nil => rfl
  | cons field fields ih =>
    rw [runFields, contributions]
    rcases field.contribute env policy with error | contribution
    · rfl
    -- Failures are recorded before the next field is evaluated, but nothing depends on them.
    · show ((recordFailures stage soFar contribution.failures).andThen _).result = _
      rw [Attempt.result_andThen, result_recordFailures, Except.bind, Attempt.result_andThen, ih]
      rcases contributions env policy fields with error | cs
      · rfl
      · simp [Except.bind, Except.map, Attempt.succeed, Evaluation.recordAll_append]

/-- All fields contribute if the first does and the others do. -/
theorem contributions_cons_eq_ok_iff {env : Environment} {policy : Policy} {field : Field}
    {fields : List Field} {cs : List Contribution} :
    contributions env policy (field :: fields) = .ok cs ↔
      ∃ c rest, field.contribute env policy = .ok c ∧
        contributions env policy fields = .ok rest ∧ cs = c :: rest := by
  simp only [contributions, bind_eq_ok_iff, map_eq_ok_iff]
  constructor
  · rintro ⟨c, hfield, rest, hfields, rfl⟩
    exact ⟨c, rest, hfield, hfields, rfl⟩
  · rintro ⟨c, rest, hfield, hfields, rfl⟩
    exact ⟨c, hfield, rest, hfields, rfl⟩

/-- An error of fields is the error of one of them. -/
theorem exists_of_contributions_eq_error {env : Environment} {policy : Policy} {fields : List Field}
    {error : EvalError} (h : contributions env policy fields = .error error) :
    ∃ field ∈ fields, field.contribute env policy = .error error := by
  induction fields with
  | nil => cases h
  | cons field fields ih =>
    rw [contributions] at h
    rcases bind_eq_error_iff.mp h with hfield | ⟨c, -, hfields⟩
    · exact ⟨field, List.mem_cons_self, hfield⟩
    · obtain ⟨next, hmem, hnext⟩ := ih (map_eq_error_iff.mp hfields)
      exact ⟨next, List.mem_cons_of_mem _ hmem, hnext⟩

/-! ### Stages -/

/-- The columns that bindings have in the table. -/
def bindingColumns (rows : Nat) (bindings : List (String × Binding)) :
    List (String × Array Float) :=
  bindings.filterMap fun binding ↦
    (binding.2.column? rows).map fun values ↦ (binding.1, values)

namespace Problem

variable (p : Problem)

/-- The state after a stage, from the state before it, what its fields contribute and the table with
their columns. -/
def completed (progress : Progress) (stage : Stage) (cs : List Contribution) (table : Table) :
    Progress :=
  let soFar := progress.soFar.recordAll (cs.flatMap (·.failures))
  ⟨progress.env.bindAll (cs.flatMap (·.bindings)),
    { soFar with table, constraints? := p.constraintsAfter stage soFar }⟩

@[simp] theorem env_completed (progress : Progress) (stage : Stage) (cs : List Contribution)
    (table : Table) :
    (p.completed progress stage cs table).env = progress.env.bindAll (cs.flatMap (·.bindings)) :=
  rfl

@[simp] theorem table_completed (progress : Progress) (stage : Stage) (cs : List Contribution)
    (table : Table) : (p.completed progress stage cs table).soFar.table = table := rfl

/-- Goes from the state before a stage to the state after it. -/
def advance (progress : Progress) (stage : Stage) (cs : List Contribution) :
    Except EvalError Progress :=
  match progress.soFar.table.insertAll
      (bindingColumns progress.env.rows (cs.flatMap (·.bindings))) with
  | .error e => .error (.table e)
  | .ok table => .ok (p.completed progress stage cs table)

/-- The result of a stage is told by what its fields contribute before anything is bound. -/
theorem result_runStage (policy : Policy) (progress : Progress) (stage : Stage) :
    (p.runStage policy progress stage).result =
      (contributions progress.env policy (p.draft.stageFields stage)).bind
        (p.advance progress stage) := by
  rw [runStage, Attempt.result_andThen, result_runFields]
  rcases contributions progress.env policy (p.draft.stageFields stage) with error | cs
  · rfl
  · simp only [Except.map, Except.bind, advance, completed, bindingColumns,
      Evaluation.recordAll]
    generalize progress.soFar.table.insertAll _ = inserted
    cases inserted <;> rfl

variable {p} in
/-- A stage that gives a result has evaluated its fields and gone on from what they contribute. -/
theorem runStage_eq_ok_iff {policy : Policy} {progress next : Progress} {stage : Stage} :
    (p.runStage policy progress stage).result = .ok next ↔ ∃ cs,
      contributions progress.env policy (p.draft.stageFields stage) = .ok cs ∧
        p.advance progress stage cs = .ok next := by
  rw [result_runStage, bind_eq_ok_iff]

/-- A run through stages takes the first of them, and then the others. -/
theorem runStages_cons (policy : Policy) (progress : Progress) (stage : Stage)
    (stages : List Stage) :
    (p.runStages policy progress (stage :: stages)).result =
      (p.runStage policy progress stage).result.bind fun next ↦
        (p.runStages policy next stages).result := by
  rw [runStages, Attempt.result_andThen]

/-- A run can be taken in two parts. -/
theorem runStages_append (policy : Policy) (progress : Progress) (stages more : List Stage) :
    (p.runStages policy progress (stages ++ more)).result =
      (p.runStages policy progress stages).result.bind fun next ↦
        (p.runStages policy next more).result := by
  induction stages generalizing progress with
  | nil => rfl
  | cons stage stages ih =>
    rw [List.cons_append, runStages_cons, runStages_cons]
    rcases (p.runStage policy progress stage).result with error | next
    · rfl
    · exact ih next

/-- A run up to a stage takes the stages before it, and then the stage. -/
theorem runStages_upTo (policy : Policy) (progress : Progress) (stage : Stage) :
    (p.runStages policy progress stage.upTo).result =
      (p.runStages policy progress stage.before).result.bind fun next ↦
        (p.runStage policy next stage).result := by
  rw [Stage.upTo, runStages_append]
  congr 1
  funext next
  rw [runStages_cons]
  rcases (p.runStage policy next stage).result with error | last <;> rfl

variable {p} in
/-- A run up to a stage succeeds if the stages before it do and the stage does then. -/
theorem runStages_upTo_eq_ok_iff {policy : Policy} {start last : Progress} {stage : Stage} :
    (p.runStages policy start stage.upTo).result = .ok last ↔ ∃ progress,
      (p.runStages policy start stage.before).result = .ok progress ∧
        (p.runStage policy progress stage).result = .ok last := by
  rw [runStages_upTo, bind_eq_ok_iff]

/-- An evaluation starts with the variables and goes through the stages up to the last one of the
plan. What it has so far in the end is its result. -/
theorem evaluate_eq (batch : Table) (plan : Plan) :
    p.evaluate batch plan =
      (p.start batch).bind fun start ↦
        ((p.runStages plan.policy start plan.last.upTo).result).map (·.soFar) := by
  rw [evaluate, run]
  rcases p.start batch with error | start
  · rfl
  · show ((p.runStages plan.policy start plan.last.upTo).andThen _).result = _
    rw [Attempt.result_andThen]
    rfl

variable {p} in
/-- An evaluation succeeds if it starts and all stages succeed. -/
theorem evaluate_eq_ok_iff {batch : Table} {plan : Plan} {result : Evaluation} :
    p.evaluate batch plan = .ok result ↔ ∃ start last, p.start batch = .ok start ∧
      (p.runStages plan.policy start plan.last.upTo).result = .ok last ∧ last.soFar = result := by
  rw [evaluate_eq, bind_eq_ok_iff]
  simp only [map_eq_ok_iff]
  constructor
  · rintro ⟨start, hstart, last, hlast, heq⟩
    exact ⟨start, last, hstart, hlast, heq⟩
  · rintro ⟨start, last, hstart, hlast, heq⟩
    exact ⟨start, hstart, last, hlast, heq⟩

end Problem

end Tradeoff
