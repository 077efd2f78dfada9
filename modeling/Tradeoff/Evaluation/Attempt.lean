import Tradeoff.Evaluation.Error

/-!
# Attempts

An `Attempt` is a computation that notes things on its way and may end in an error. It keeps its
notes in the order in which they were taken, also those taken before an error. An expression notes
failures of single samples; the evaluation of a problem notes the moments at which it can be
stopped.

What the failures of an attempt mean can be decided at its end (`Policy.settle`): either the first
of them is the error of the whole attempt, or they are reported beside its result, the first for
each sample. An evaluation under a policy decides it failure by failure, as they are met.
-/

namespace Tradeoff

/-- A computation with the notes it took and its result or error. -/
structure Attempt (ν α : Type) where
  /-- The notes in the order in which they were taken. -/
  notes : List ν
  /-- The result, or the error that ended the computation. -/
  result : Except EvalError α

namespace Attempt

variable {ν α β : Type}

/-- The attempt that gives a value. -/
def succeed (value : α) : Attempt ν α := ⟨[], .ok value⟩

/-- The attempt that ends in an error. -/
def fail (error : EvalError) : Attempt ν α := ⟨[], .error error⟩

/-- An attempt and then another one on its value. After an error nothing is attempted. -/
def andThen (a : Attempt ν α) (next : α → Attempt ν β) : Attempt ν β :=
  match a.result with
  | .error error => ⟨a.notes, .error error⟩
  | .ok value => ⟨a.notes ++ (next value).notes, (next value).result⟩

theorem andThen_error (notes : List ν) (error : EvalError) (next : α → Attempt ν β) :
    andThen ⟨notes, .error error⟩ next = ⟨notes, .error error⟩ := rfl

theorem andThen_ok (notes : List ν) (value : α) (next : α → Attempt ν β) :
    andThen ⟨notes, .ok value⟩ next = ⟨notes ++ (next value).notes, (next value).result⟩ := rfl

@[simp] theorem succeed_andThen (value : α) (next : α → Attempt ν β) :
    (succeed value).andThen next = next value := by
  simp [succeed, andThen_ok]

@[simp] theorem fail_andThen (error : EvalError) (next : α → Attempt ν β) :
    (fail error).andThen next = fail error := rfl

theorem andThen_assoc {γ : Type} (a : Attempt ν α) (next : α → Attempt ν β)
    (last : β → Attempt ν γ) :
    (a.andThen next).andThen last = a.andThen fun value ↦ (next value).andThen last := by
  obtain ⟨notes, error | value⟩ := a
  · rfl
  · rcases h : next value with ⟨notes', error | value'⟩
    · simp [andThen_ok, andThen_error, h]
    · simp [andThen_ok, h]

end Attempt

/-- What becomes of the failure of a sample. -/
inductive Policy where
  /-- The first failure is an error. -/
  | failFast
  /-- The sample has no value, and the failure is reported. -/
  | perRow
deriving DecidableEq, Repr

/-- Of the failures, the first for each sample that is not in `seen`. -/
def firstPerSample (seen : List (Option Nat)) : List Failure → List Failure
  | [] => []
  | f :: fs =>
    if f.sample ∈ seen then firstPerSample seen fs
    else f :: firstPerSample (f.sample :: seen) fs

/-- The outcome of an attempt under a policy: the value with the failures to report, or an error. -/
def Policy.settle {α : Type} (policy : Policy) (a : Attempt Failure α) :
    Except EvalError (α × List Failure) :=
  match policy, a.notes, a.result with
  | .failFast, f :: _, _ => .error (.failure f)
  | _, _, .error error => .error error
  | .failFast, [], .ok value => .ok (value, [])
  | .perRow, failures, .ok value => .ok (value, firstPerSample [] failures)

end Tradeoff
