import Tradeoff.Proofs.Evaluation.Checked
import Tradeoff.Proofs.Evaluation.RunFailures
import Tradeoff.Proofs.Evaluation.Scalarizing
import Tradeoff.Proofs.Problem.Description
import Tradeoff.Proofs.Problem.Loading

/-!
# Where arguments are counted

Numbers of arguments are checked when expressions are built, and expressions are built in few ways
(`Expr.IsBuilt`). So no problem that was loaded, whatever weighted sums and achievement functions
have been added to it, has an operator with a number of arguments that it does not take, and none is
refused when it is evaluated. Any other tree is refused at the operation itself, before its
arguments have values (`takesArity_and_never_refused`).
-/

namespace Tradeoff

namespace Expr

/-! ### Building expressions -/

theorem IsPlain.takesArity {e : Expr} (h : e.IsPlain) : e.TakesArity := by
  induction h with
  | number value => exact takesArity_literal _
  | symbol name => exact takesArity_symbol name
  | operation _ haccepts _ ih => exact takesArity_operation.mpr ⟨haccepts, ih⟩

/-- The expression is a weighted sum or an achievement function, made for a problem. -/
inductive IsScalarization : Expr → Prop where
  /-- A weighted sum. -/
  | weightedSum {p : Problem} {weights : SortedMap Float} {e : Expr} :
      weightedSum weights p = .ok e → IsScalarization e
  /-- An achievement function. -/
  | achievement {p : Problem} {a : Achievement} {e : Expr} :
      a.scalarizer p = .ok e → IsScalarization e

theorem IsScalarization.takesArity {e : Expr} (h : e.IsScalarization) : e.TakesArity := by
  cases h with
  | weightedSum h => exact (Problem.combines_of_weightedSum h).plain.takesArity
  | achievement h => exact (Problem.combines_of_achievement h).plain.takesArity

/-- The expression is returned by one of the functions that build expressions: it is read from a
formula or an array form, built with a check from arguments in which operators have the arguments
they take, or made to scalarize a problem. -/
inductive IsBuilt : Expr → Prop where
  /-- A formula. -/
  | parse {formula : String} {e : Expr} : parse formula = .ok e → IsBuilt e
  /-- An array form. -/
  | arrayForm {j : Json} {e : Expr} : ofArrayForm? j = .ok e → IsBuilt e
  /-- An operation. -/
  | operation {op : Operator} {args : List Expr} {e : Expr} : (∀ arg ∈ args, arg.TakesArity) →
      operation? op args = .ok e → IsBuilt e
  /-- An operation by the name of its operator. -/
  | call {name : String} {args : List Expr} {e : Expr} : (∀ arg ∈ args, arg.TakesArity) →
      call? name args = .ok e → IsBuilt e
  /-- A weighted sum or an achievement function. -/
  | scalarization {e : Expr} : e.IsScalarization → IsBuilt e

/-- An operation is built if its operator takes its arguments. -/
theorem takesArity_of_operation? {op : Operator} {args : List Expr} {e : Expr}
    (h : operation? op args = .ok e) (hargs : ∀ arg ∈ args, arg.TakesArity) : e.TakesArity := by
  unfold operation? at h
  split at h
  · next haccepts =>
    cases h
    exact takesArity_operation.mpr ⟨haccepts, hargs⟩
  · cases h

/-- However an expression is built, its operators have the arguments they take. -/
theorem IsBuilt.takesArity {e : Expr} (h : e.IsBuilt) : e.TakesArity := by
  cases h with
  | parse h => exact takesArity_of_parse h
  | arrayForm h => exact takesArity_of_ofArrayForm? _ h
  | operation hargs h => exact takesArity_of_operation? h hargs
  | call hargs h => exact takesArity_of_call? h hargs
  | scalarization h => exact h.takesArity

/-- An expression in which operators have the arguments they take is never refused. -/
theorem TakesArity.failsOnly {e : Expr} (h : e.TakesArity) :
    e.FailsOnly fun f ↦ ¬f.fault.IsArity := by
  intro scene f hf hfault
  obtain ⟨-, op, args, hnode, -, -, hrefused⟩ := refuses_of_isArity hf hfault
  exact hrefused (h op args hnode)

end Expr

/-! ### Loaded and extended problems -/

/-- A loaded problem keeps the arguments right when scalarizations with right ones are added to
it. -/
theorem Problem.Reaches.everyExpr_takesArity {j : Json} {p q : Problem}
    {added : List DerivedFunction} (hload : ofDescription? j = .ok p) (h : p.Reaches added q)
    (hadded : ∀ f ∈ added, f.expr.TakesArity) : q.draft.EveryExpr Expr.TakesArity := by
  obtain ⟨hextra, hobjectives, hconstraints, hscalarizations⟩ := Draft.everyExpr_iff.mp
    (Json.readDraft_takesArity (ofDescription?_eq_ok_iff.mp hload))
  rw [h.draft_eq, Draft.everyExpr_iff]
  exact ⟨hextra, hobjectives, hconstraints, List.forall_mem_append.mpr ⟨hscalarizations, hadded⟩⟩

/-- In every expression that is built, every operator has as many arguments as it takes. So whatever
is evaluated of a loaded problem to which weighted sums and achievement functions have been added,
under any observer, no failure is about a number of arguments: neither one that is reported or on
record nor one in which the evaluation ends. In any tree at all an operator is never called with a
number of arguments that it does not expect, where the calls are all those that the evaluation
depends on, and a failure about a number of arguments is the refusal of an operation, for which no
sample is to blame. -/
theorem takesArity_and_never_refused :
    (∀ e : Expr, e.IsBuilt → e.TakesArity) ∧
    (∀ j p added q, Problem.ofDescription? j = .ok p → p.Reaches added q →
      (∀ f ∈ added, f.expr.IsScalarization) → ∀ batch plan observer,
        ObservedFailsOnly (fun f ↦ ¬f.fault.IsArity) (q.evaluateObserved batch plan observer)) ∧
    ∀ e : Expr,
      (∀ scene known?, (∀ op row, e.Calls scene op row → known? op row = some (op.apply row)) →
        e.checkedColumnBy known? scene = some (e.attemptColumn scene)) ∧
      (∀ scene op row fault, e.Calls scene op row → op.value row = .error fault →
        ¬fault.IsArity) ∧
      ∀ env policy f, (e.evaluate env policy = .error (.failure f) ∨
          ∃ values failures, e.evaluate env policy = .ok (values, failures) ∧ f ∈ failures) →
        f.fault.IsArity → f.Refuses e.nodes := by
  refine ⟨fun e he ↦ he.takesArity, fun j p added q hload hreaches hadded batch plan observer ↦ ?_,
    fun e ↦ ⟨fun scene known? h ↦ e.checkedColumnBy_eq scene h,
      fun scene op row fault hcall ↦ hcall.not_isArity, fun env policy f htold ↦ ?_⟩⟩
  · have harity := hreaches.everyExpr_takesArity hload fun f hf ↦ (hadded f hf).takesArity
    exact Problem.evaluateObserved_failsOnly
      (fun field hfield e he ↦ (harity field hfield e he).failsOnly) batch plan observer
  · rcases htold with herror | ⟨values, failures, hok, hf⟩
    · have hsettle := Expr.evaluate_eq_error_iff.mp herror
      exact Expr.refuses_of_isArity (Policy.mem_notes_or_of_settle hsettle)
    · obtain ⟨column, hsettle, -⟩ := Expr.evaluate_eq_ok_iff.mp hok
      exact Expr.refuses_of_isArity (.inl (Policy.mem_notes_of_settle hsettle hf))

/-- A description with a formula for a variable. -/
def identityDescription : Json :=
  .object [("objectives", .array [.object [("func", .string "x"), ("name", .string "f"),
      ("symbol", .string "f")]]),
    ("variables", .array [.object [("name", .string "x"), ("symbol", .string "x")]])]

/-- A quotient of one argument. -/
def Expr.halfQuotient : Expr := .operation .divide [number 1]

/-- A loaded problem with a weighted sum is evaluated without a refusal, and the quotient of one
argument is refused, although no formula has such a tree. For this no operator is called. -/
theorem identityDescription_never_refused :
    (∃ p q e, Problem.ofDescription? identityDescription = .ok p ∧
      weightedSum Problem.doubleWeight p = .ok e ∧ e.TakesArity ∧
      p.addScalarization "s" "s" (weightedSum Problem.doubleWeight) = .ok q ∧
      ObservedFailsOnly (fun f ↦ ¬f.fault.IsArity) (q.evaluateObserved .empty {} .silent)) ∧
    (¬Expr.halfQuotient.IsBuilt) ∧
    Expr.halfQuotient.checkedColumnBy (fun _ _ ↦ none) ⟨.empty 1, none⟩ =
      some (Expr.halfQuotient.attemptColumn ⟨.empty 1, none⟩) ∧
    ∃ f, Expr.halfQuotient.evaluate (.empty 1) .perRow = .error (.failure f) ∧ f.sample = none := by
  obtain ⟨hbuilt, hloaded, htree⟩ := takesArity_and_never_refused
  refine ⟨?_, fun h ↦ ?_, (htree _).1 _ _ fun op row hcall ↦ ?_, ?_⟩
  · have hok : ((Problem.ofDescription? identityDescription).toOption.bind fun p ↦
        (p.addScalarization "s" "s" (weightedSum Problem.doubleWeight)).toOption).isSome := by
      decide +kernel
    rcases hp : Problem.ofDescription? identityDescription with error | p
    · rw [hp] at hok
      cases hok
    · rcases hq : p.addScalarization "s" "s" (weightedSum Problem.doubleWeight) with error | q
      · rw [hp, Except.toOption, Option.bind_some, hq] at hok
        cases hok
      · obtain ⟨e, haccepts, -⟩ := Problem.addScalarization_eq_ok_iff.mp hq
        have hscalarization : e.IsScalarization := .weightedSum haccepts.made
        refine ⟨p, q, e, rfl, haccepts.made, hbuilt e (.scalarization hscalarization), hq, ?_⟩
        refine hloaded _ p _ q hp (.add .start haccepts.made hq) ?_ _ _ _
        exact List.forall_mem_singleton.mpr hscalarization
  · have harity := hbuilt _ h .divide [.number 1] (Expr.self_mem_nodes _)
    cases harity
  · obtain ⟨args, columns, hnode, happlies, -⟩ := hcall.exists_applies
    rcases Expr.mem_nodes_operation.mp hnode with hself | ⟨arg, harg, hinner⟩
    · cases hself
      cases happlies.accepts
    · obtain rfl := List.mem_singleton.mp harg
      cases List.mem_singleton.mp hinner
  · refine ⟨⟨none, Expr.halfQuotient.text, none, .arity .divide 1⟩, rfl, ?_⟩
    exact ((htree Expr.halfQuotient).2.2 (.empty 1) .perRow _ (.inl rfl) trivial).sample_eq

end Tradeoff
