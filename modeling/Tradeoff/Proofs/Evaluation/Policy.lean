import Tradeoff.Evaluation.Policy
import Tradeoff.Proofs.Evaluation.Nodes

/-!
# Policies and attempts

An evaluation under a policy decides about every failure where it meets it, and ends there if it is
to fail fast. An attempt goes on and leaves the decision to the end. Both come to the same
(`Expr.computeColumn_eq`): up to the first failure they take the same steps, a later fault that is
no sample's does not matter if the first failure is an error already, and a failure goes on record
exactly if it is the first of its sample.

`Policy.Carries` says this of a computation and an attempt, whatever is on record before. It is kept
by sequences (`Carries.bind`) and by loops over samples (`Carries.mapM`).
-/

namespace Tradeoff

variable {α β : Type}

/-! ### Records -/

namespace FailureLog

/-- The record with one more failure. -/
def note (log : FailureLog) (failure : Failure) : FailureLog :=
  match failure.sample with
  | some sample => log.record sample failure
  | none => log

/-- A sample fails once only. -/
theorem note_of_mem {log : FailureLog} {failure : Failure} {sample : Nat}
    (h : failure.sample = some sample) (hmem : sample ∈ log.samples) : log.note failure = log := by
  rw [note, h]
  exact if_pos hmem

/-- The first failure of a sample goes on record. -/
theorem note_of_not_mem {log : FailureLog} {failure : Failure} {sample : Nat}
    (h : failure.sample = some sample) (hmem : sample ∉ log.samples) :
    log.note failure = ⟨log.failures.push failure, sample :: log.samples⟩ := by
  rw [note, h]
  exact if_neg hmem

/-- On record are the failures from before and, of the others, the first for each sample that had
none. -/
theorem failures_foldl_note {failures : List Failure} (h : ∀ f ∈ failures, f.sample.isSome)
    (log : FailureLog) :
    (failures.foldl note log).failures.toList =
      log.failures.toList ++ firstPerSample (log.samples.map some) failures := by
  induction failures generalizing log with
  | nil => exact (List.append_nil _).symm
  | cons f failures ih =>
    rw [List.forall_mem_cons] at h
    obtain ⟨sample, hsample⟩ := Option.isSome_iff_exists.mp h.1
    have hseen : f.sample ∈ log.samples.map some ↔ sample ∈ log.samples := by
      simp [hsample]
    rw [List.foldl_cons, ih h.2, firstPerSample]
    by_cases hmem : sample ∈ log.samples
    · rw [note_of_mem hsample hmem, if_pos (hseen.mpr hmem)]
    · rw [note_of_not_mem hsample hmem, if_neg (mt hseen.mp hmem), Array.toList_push,
        List.append_assoc, List.map_cons, hsample]
      rfl

end FailureLog

/-! ### Computations and attempts -/

namespace Policy

/-- What a policy makes of an attempt if some failures are on record before. -/
def proceed (policy : Policy) (a : Attempt Failure α) (log : FailureLog) :
    Except EvalError (α × FailureLog) :=
  match policy, a.notes, a.result with
  | .failFast, f :: _, _ => .error (.failure f)
  | _, _, .error error => .error error
  | _, notes, .ok value => .ok (value, notes.foldl FailureLog.note log)

variable {policy : Policy} {log : FailureLog}

/-- What the first part puts on record is on record for the second. -/
theorem proceed_andThen (a : Attempt Failure α) (next : α → Attempt Failure β) :
    policy.proceed (a.andThen next) log =
      policy.proceed a log >>= fun (value, log) ↦ policy.proceed (next value) log := by
  obtain ⟨notes, error | value⟩ := a
  · cases policy <;> cases notes <;> rfl
  · rw [Attempt.andThen_ok]
    rcases hnext : next value with ⟨notes', error | value'⟩ <;> cases policy <;>
      cases notes <;> simp [proceed, hnext, List.foldl_append, bind, Except.bind]

/-- Without anything on record, the failures of an attempt are settled. -/
theorem settle_eq_proceed {a : Attempt Failure α} (h : ∀ f ∈ a.notes, f.sample.isSome) :
    policy.settle a =
      (policy.proceed a .empty).map fun (value, log) ↦ (value, log.failures.toList) := by
  obtain ⟨notes, error | value⟩ := a
  · cases policy <;> cases notes <;> rfl
  · have hlog := FailureLog.failures_foldl_note h .empty
    cases policy with
    | failFast => cases notes <;> rfl
    | perRow => exact congrArg (fun failures ↦ Except.ok (value, failures)) hlog.symm

/-- Under the policy the computation comes to what the attempt comes to. -/
structure Carries (policy : Policy) (a : Attempt Failure α) (run : Logged α) : Prop where
  /-- All failures of the attempt are those of samples. -/
  isSome : ∀ f ∈ a.notes, f.sample.isSome
  /-- This is so whatever is on record before. -/
  run_eq : ∀ log, run.run log = policy.proceed a log

namespace Carries

variable {a : Attempt Failure α} {run : Logged α}

/-- A value comes without failures. -/
theorem pure (value : α) : policy.Carries (.succeed value) (pure value) where
  isSome := nofun
  run_eq log := by
    cases policy <;> rfl

/-- An error that is no sample's is the same under either policy. -/
theorem throw (error : EvalError) : policy.Carries (.fail error : Attempt Failure α)
    (throw error) where
  isSome := nofun
  run_eq log := by
    cases policy <;> rfl

/-- What notes no failures is carried by its result. -/
theorem of_result (h : a.notes = []) : policy.Carries a (liftM a.result) := by
  obtain ⟨notes, result⟩ := a
  cases h
  rcases result with error | value
  · exact throw error
  · exact pure value

/-- One after the other: after an error, that of a failure or another, nothing is computed. -/
theorem bind {next : α → Attempt Failure β} {nextRun : α → Logged β} (h : policy.Carries a run)
    (hnext : ∀ value, policy.Carries (next value) (nextRun value)) :
    policy.Carries (a.andThen next) (run >>= nextRun) where
  isSome := by
    obtain ⟨notes, error | value⟩ := a
    · exact h.isSome
    · exact fun f hf ↦ (List.mem_append.mp hf).elim (h.isSome f) ((hnext value).isSome f)
  run_eq log := by
    rw [StateT.run_bind, h.run_eq, proceed_andThen]
    congr 1
    funext last
    exact (hnext last.1).run_eq last.2

/-- A loop over samples carries the attempt with the failures of all of them. -/
theorem mapM {failure? : Nat → Option Failure} {value : Nat → α} {body : Nat → Logged α}
    (h : ∀ sample, policy.Carries ⟨(failure? sample).toList, .ok (value sample)⟩ (body sample))
    (samples : List Nat) :
    policy.Carries ⟨samples.filterMap failure?, .ok (samples.map value)⟩ (samples.mapM body) := by
  induction samples with
  | nil => exact pure []
  | cons sample samples ih =>
    have hsplit : (⟨(sample :: samples).filterMap failure?, .ok ((sample :: samples).map value)⟩ :
        Attempt Failure (List α)) =
          (⟨(failure? sample).toList, .ok (value sample)⟩ : Attempt Failure α).andThen fun first ↦
            (⟨samples.filterMap failure?, .ok (samples.map value)⟩ :
              Attempt Failure (List α)).andThen fun others ↦ .succeed (first :: others) := by
      rcases hfailure : failure? sample with _ | failure <;>
        simp [Attempt.andThen, Attempt.succeed, hfailure]
    rw [hsplit, List.mapM_cons]
    exact (h sample).bind fun first ↦ ih.bind fun others ↦ pure (first :: others)

/-- A loop in which every sample fails. -/
theorem forM {failure : Nat → Failure} {body : Nat → Logged Unit}
    (h : ∀ sample, policy.Carries ⟨[failure sample], .ok ()⟩ (body sample)) (samples : List Nat) :
    policy.Carries ⟨samples.map failure, .ok ()⟩ (samples.forM body) := by
  induction samples with
  | nil => exact pure ()
  | cons sample samples ih => exact (h sample).bind fun _ ↦ ih

end Carries

end Policy

/-! ### Nodes -/

namespace Scene

/-- A failure of a sample ends the computation or is put on record. -/
theorem carries_failSample (scene : Scene) (policy : Policy) (node : Expr) (sample : Nat)
    (fault : Fault) :
    policy.Carries ⟨[⟨scene.field, node.text, some sample, fault⟩], .ok ()⟩
      (scene.failSample policy node sample fault) where
  isSome f hf := by
    rw [List.mem_singleton.mp hf]
    rfl
  run_eq log := by
    cases policy <;> rfl

/-- The failure, if there is one, and the value of a sample. -/
theorem carries_settleSample (scene : Scene) (policy : Policy) (node : Expr) (sample : Nat)
    (outcome : Except Fault Float) :
    policy.Carries
      ⟨((faultOf? outcome).map fun fault ↦
          (⟨scene.field, node.text, some sample, fault⟩ : Failure)).toList, .ok (valueOf outcome)⟩
      (scene.settleSample policy node sample outcome) := by
  rcases outcome with fault | value
  · exact (scene.carries_failSample policy node sample fault).bind fun _ ↦ .pure notANumber
  · exact .pure value

/-- The faults of the samples are dealt with in the order of the samples. -/
theorem carries_computeRows (scene : Scene) (policy : Policy) (node : Expr) (op : Operator)
    (columns : List Column) :
    policy.Carries (scene.applyRows node op columns)
      (scene.computeRows policy node op columns) := by
  rcases hconstants : constants? columns with _ | args
  · have hvalues (f : Nat → Float) : (Array.range scene.env.rows).map f =
        ((List.range scene.env.rows).map f).toArray := by
      rw [← List.map_toArray, List.toArray_range]
    have hsample (sample : Nat) := scene.carries_settleSample policy node sample
      (op.apply (columns.map fun column ↦ column.get sample))
    have hloop := (Policy.Carries.mapM hsample (List.range scene.env.rows)).bind fun values ↦
      .pure (Column.samples values.toArray)
    rw [Attempt.andThen_ok, Attempt.succeed, List.append_nil, ← hvalues] at hloop
    rw [applyRows_of_samples hconstants, computeRows, hconstants]
    exact hloop
  · rw [applyRows_of_constants hconstants, computeRows, hconstants]
    cases hop : op.apply args with
    | error fault =>
      have hsample (sample : Nat) := scene.carries_failSample policy node sample fault
      have hloop := (Policy.Carries.forM hsample (List.range scene.env.rows)).bind fun _ ↦
        .pure (Column.constant notANumber)
      rw [Attempt.andThen_ok, Attempt.succeed, List.append_nil, ← List.filterMap_eq_map'] at hloop
      simp only [hop]
      exact hloop
    | ok value =>
      rw [faultOf?, valueOf, rowFailures_none]
      simp only [hop]
      exact .pure (Column.constant value)

end Scene

/-! ### Expressions -/

namespace Expr

variable {scene : Scene} {policy : Policy}

/-- The columns of arguments are computed as they are attempted, if the arguments are. -/
theorem carries_computeColumns (op : Operator) {args : List Expr}
    (h : ∀ arg ∈ args, policy.Carries (arg.attempt scene) (arg.compute scene policy)) :
    policy.Carries (attemptColumns scene op args) (computeColumns scene policy op args) := by
  induction args with
  | nil => exact .pure []
  | cons arg args ih =>
    have hothers := ih fun arg hmem ↦ h arg (List.mem_cons_of_mem _ hmem)
    rw [attemptColumns, computeColumns]
    refine (h arg List.mem_cons_self).bind fun value ↦ ?_
    cases value with
    | scalar column => exact hothers.bind fun columns ↦ .pure (column :: columns)
    | vector name components =>
      dsimp only
      split
      · exact hothers.bind fun columns ↦ .pure (components ++ columns)
      · exact .throw _

/-- By induction along the evaluation: an expression is computed as it is attempted. -/
theorem carries_compute (scene : Scene) (e : Expr) :
    policy.Carries (e.attempt scene) (e.compute scene policy) := by
  induction e using attempt_induction with
  | number value => exact .pure _
  | bool value => exact .throw _
  | symbol name =>
    rw [attempt, compute]
    exact .of_result (scene.notes_lookup name)
  | refused op args h =>
    rw [attempt_refused scene h, compute, if_neg h]
    · exact .throw _
    · rintro vector index rfl rfl
      exact h rfl
  | component vector index ihvector ihindex =>
    have haccepts : Operator.component.arity.accepts [vector, index].length := rfl
    rw [attempt, compute, if_pos haccepts, if_pos haccepts]
    refine ihvector.bind fun value ↦ ?_
    cases value with
    | scalar column => exact .throw _
    | vector name components =>
      exact ihindex.bind fun position ↦
        .of_result (scene.notes_component _ index components position)
  | applied op args hop h ih =>
    rw [attempt_applied scene hop h, compute, if_pos h]
    · refine (carries_computeColumns op ih).bind fun columns ↦ ?_
      exact (scene.carries_computeRows policy _ op columns).bind fun column ↦
        .pure (Value.scalar column)
    · intro _ _ hcomponent _
      exact hop hcomponent

/-- Deciding about the failures as they are met comes to the same as deciding at the end. -/
theorem computeColumn_eq (scene : Scene) (policy : Policy) (e : Expr) :
    e.computeColumn scene policy = policy.settle (e.attemptColumn scene) := by
  have hcarries : policy.Carries (e.attemptColumn scene) (e.compute scene policy >>= fun value ↦
      liftM (scene.needScalar e value).result) := by
    refine (carries_compute scene e).bind fun value ↦ .of_result ?_
    cases value <;> rfl
  rw [Policy.settle_eq_proceed hcarries.isSome, ← hcarries.run_eq, StateT.run_bind, computeColumn]
  rcases (e.compute scene policy).run .empty with error | ⟨column | ⟨name, components⟩, log⟩ <;> rfl

/-- An evaluation settles the attempt and writes the column out. -/
theorem evaluate_eq (e : Expr) (env : Environment) (policy : Policy) :
    e.evaluate env policy =
      (policy.settle (e.attemptColumn ⟨env, none⟩)).map fun (column, failures) ↦
        (column.broadcast env.rows, failures) := by
  rw [evaluate, computeColumn_eq]
  rcases policy.settle (e.attemptColumn ⟨env, none⟩) with error | settled <;> rfl

end Expr

end Tradeoff
