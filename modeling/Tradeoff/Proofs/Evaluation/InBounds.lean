import Tradeoff.Proofs.Evaluation.Checked

/-!
# Evaluation in bounds

No column is read past its end and no offset is missing, whatever the lengths of the bound columns
and the values of indices are: the evaluation by checked steps has the same outcome
(`Expr.checkedColumn_eq`). An evaluation that succeeds has a value for each sample and reports
failures of samples that there are (`Expr.evaluate_in_bounds`).
-/

namespace Tradeoff

namespace Scene

variable (scene : Scene)

/-- An index names a component that the vector has, or is out of range. Up to two to the power of 53
it has to be equal to the number of the component. -/
theorem component_cases (node indexNode : Expr) (components : List Column) (index : Float) :
    (∃ offset, ∃ h : offset < components.length, index.toUInt64.toNat = offset + 1 ∧
      (offset + 1 < 2 ^ 53 → index == Float.ofNat (offset + 1)) ∧
      scene.component node indexNode components (.scalar (.constant index)) =
        .succeed (.scalar components[offset])) ∨
    scene.component node indexNode components (.scalar (.constant index)) =
      .fail (scene.structural node (.indexOutOfRange index components.length)) := by
  rw [component]
  rcases hoffset : offset? index with _ | offset
  · exact .inr rfl
  · rw [Option.bind_some]
    by_cases hlt : offset < components.length
    · refine .inl ⟨offset, hlt, ?_, fun hshort ↦ (offset?_eq_some_iff hshort).mp hoffset, ?_⟩
      · unfold offset? at hoffset
        split at hoffset
        · next hguard =>
          have hpos := toUInt64_pos (of_decide_eq_true (Bool.and_eq_true_iff.mp hguard).1)
          have hsubtracted := Option.some.inj hoffset
          omega
        · cases hoffset
      · rw [List.getElem?_eq_getElem hlt]
    · rw [List.getElem?_eq_none (Nat.le_of_not_lt hlt)]
      exact .inr rfl

end Scene

namespace Expr

/-- An evaluation that succeeds has a value for each sample, and reports failures of samples that
there are. Whether it succeeds or not, and whatever the lengths of the bound columns are, no column
is read past its end on the way, and no offset is missing: evaluated by checked steps, the
expression has the same outcome. The offset is that of an index from one on, whose whole part is not
zero even if the index is infinite or too large, and the component is taken only if there is one. -/
theorem evaluate_in_bounds (e : Expr) (env : Environment) (policy : Policy) :
    (∀ values failures, e.evaluate env policy = .ok (values, failures) →
      values.size = env.rows ∧ ∀ f ∈ failures, ∃ sample < env.rows, f.sample = some sample) ∧
    (∀ field, e.checkedColumn ⟨env, field⟩ = some (e.attemptColumn ⟨env, field⟩)) ∧
    (∀ index : Float, 1 ≤ index → 0 < index.toUInt64.toNat) ∧
    ∀ (scene : Scene) (node indexNode : Expr) (components : List Column) (index : Float),
      (∃ offset, ∃ h : offset < components.length, index.toUInt64.toNat = offset + 1 ∧
        (offset + 1 < 2 ^ 53 → index == Float.ofNat (offset + 1)) ∧
        scene.component node indexNode components (.scalar (.constant index)) =
          .succeed (.scalar components[offset])) ∨
      scene.component node indexNode components (.scalar (.constant index)) =
        .fail (scene.structural node (.indexOutOfRange index components.length)) := by
  refine ⟨fun values failures h ↦ ?_, fun field ↦ checkedColumn_eq _ e, fun index ↦ toUInt64_pos,
    fun scene ↦ scene.component_cases⟩
  obtain ⟨column, hsettle, rfl⟩ := evaluate_eq_ok_iff.mp h
  have hfits : column.Fits env.rows := (attemptColumn_ends _ e).of_ok (Policy.settle_eq_ok hsettle)
  refine ⟨hfits.size_broadcast, fun f hf ↦ ?_⟩
  exact (attemptColumn_places _ e f (Policy.mem_notes_of_settle hsettle hf)).2

/-- One over the second component of a vector. -/
def reciprocalOfComponent : Expr := .divide (.number 1) (.component "v" 2)

/-- The second component is zero for the second of two samples, which fails; a bound column of
another length does no harm. An infinite index has a whole part, and what is not a number is out of
range. -/
theorem reciprocalOfComponent_in_bounds :
    let components : List Column := [.constant 3, .samples #[4, 0]]
    let env := (Environment.empty 2).bindAll
      [("v", .vector components), ("short", .scalar (.samples #[5]))]
    (∃ values failures,
      reciprocalOfComponent.evaluate env .perRow = .ok (values, failures) ∧ values.size = 2 ∧
        failures.map Failure.sample = [some 1] ∧
        ∀ f ∈ failures, ∃ sample < 2, f.sample = some sample) ∧
    reciprocalOfComponent.checkedColumn ⟨env, none⟩ =
      some (reciprocalOfComponent.attemptColumn ⟨env, none⟩) ∧
    0 < (1 / 0 : Float).toUInt64.toNat ∧
    Scene.component ⟨env, none⟩ reciprocalOfComponent (.symbol "i") components
      (.scalar (.constant notANumber)) =
        .fail (Scene.structural ⟨env, none⟩ reciprocalOfComponent
          (.indexOutOfRange notANumber 2)) := by
  intro components env
  obtain ⟨hends, hchecked, hwhole, hcases⟩ := evaluate_in_bounds reciprocalOfComponent env .perRow
  refine ⟨?_, hchecked none, hwhole _ (by decide +kernel), ?_⟩
  · have hsamples : (reciprocalOfComponent.evaluate env .perRow).toOption.map
        (fun outcome ↦ outcome.2.map Failure.sample) = some [some 1] := by
      decide +kernel
    rcases h : reciprocalOfComponent.evaluate env .perRow with error | ⟨values, failures⟩
    · rw [h] at hsamples
      cases hsamples
    · rw [h] at hsamples
      obtain ⟨hsize, hbelow⟩ := hends values failures h
      exact ⟨values, failures, rfl, hsize, Option.some.inj hsamples, hbelow⟩
  · rcases hcases ⟨env, none⟩ reciprocalOfComponent (.symbol "i") components notANumber with
      ⟨offset, hlt, -, hnumber, -⟩ | hfail
    · have hshort : offset + 1 < 2 ^ 53 := Nat.lt_trans (Nat.succ_lt_succ hlt) (by decide)
      have hnan := (beq_iff.mp (hnumber hshort)).1
      cases hnan
    · exact hfail

end Expr

end Tradeoff
