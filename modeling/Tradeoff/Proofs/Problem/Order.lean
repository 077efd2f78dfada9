import Tradeoff.Proofs.Problem.Claims

/-!
# The order of fields

The fields of a draft come in lists, one for each kind. Whether a draft is a problem does not depend
on their order in these lists (`Draft.Reorders.exists_build_iff`), although the fault that is found
first does. All that matters is which symbols are claimed, how often, and which are in scope.
-/

namespace Tradeoff.Draft

/-- The second draft has the fields of the first in another order, each in the list of its kind, and
the same stored samples. -/
structure Reorders (d d' : Draft) : Prop where
  constants : d.constants.Perm d'.constants
  decisions : d.decisions.Perm d'.decisions
  extraFunctions : d.extraFunctions.Perm d'.extraFunctions
  objectives : d.objectives.Perm d'.objectives
  constraints : d.constraints.Perm d'.constraints
  scalarizations : d.scalarizations.Perm d'.scalarizations
  samples : d.samples? = d'.samples?

namespace Reorders

variable {d d' : Draft}

theorem symm (h : d.Reorders d') : d'.Reorders d where
  constants := h.constants.symm
  decisions := h.decisions.symm
  extraFunctions := h.extraFunctions.symm
  objectives := h.objectives.symm
  constraints := h.constraints.symm
  scalarizations := h.scalarizations.symm
  samples := h.samples.symm

/-- All fields of both drafts are the same, in some order. -/
theorem fields (h : d.Reorders d') : d.fields.Perm d'.fields := by
  unfold Draft.fields
  exact (((((h.constants.map _).append (h.decisions.map _)).append (h.extraFunctions.map _)).append
    (h.objectives.map _)).append (h.constraints.map _)).append (h.scalarizations.map _)

theorem stageFields (h : d.Reorders d') (s : Stage) :
    (d.stageFields s).Perm (d'.stageFields s) := by
  cases s with
  | constants => exact h.constants.map _
  | extraFunctions => exact h.extraFunctions.map _
  | objectives => exact h.objectives.map _
  | constraints => exact h.constraints.map _
  | scalarizations => exact h.scalarizations.map _

/-- The same symbols are known after some stages. -/
theorem mem_known_iff (h : d.Reorders d') (stages : List Stage) (symbol : String) :
    symbol ∈ d.known stages ↔ symbol ∈ d'.known stages := by
  simp only [known, stageClaims, List.mem_append, List.mem_map, List.mem_flatMap,
    h.decisions.mem_iff, (h.stageFields _).mem_iff]

/-- Nothing is wrong with a draft if nothing is wrong with it in another order. -/
theorem fault?_eq_none (h : d.Reorders d') (hsound : d.fault? = none) : d'.fault? = none := by
  obtain ⟨hobjectives, hclaims, hexpressions, hreferences⟩ := fault?_eq_none_iff.mp hsound
  refine fault?_eq_none_iff.mpr ⟨fun hempty ↦ ?_, ?_, ?_, ?_⟩
  · exact hobjectives (hempty ▸ h.objectives).eq_nil
  · have hperm : d.claims.Perm d'.claims := h.fields.flatMap_right _
    obtain ⟨hidentifiers, hnodup, -⟩ := claimFault?_eq_none_iff.mp hclaims
    refine claimFault?_eq_none_iff.mpr ⟨fun symbol hsymbol ↦ ?_, hperm.nodup_iff.mp hnodup,
      fun _ _ ↦ List.not_mem_nil⟩
    exact hidentifiers symbol (hperm.mem_iff.mpr hsymbol)
  · refine expressionFault?_eq_none_iff.mpr fun f hf hexpr ↦ ?_
    have hstored := expressionFault?_eq_none_iff.mp hexpressions f
      (h.objectives.mem_iff.mpr hf) hexpr
    rwa [isStored, h.samples] at hstored
  · refine referenceFault?_eq_none_iff.mpr fun s field hfield e he symbol hsymbol ↦ ?_
    have hscope := referenceFault?_eq_none_iff.mp hreferences s field
      ((h.stageFields s).mem_iff.mpr hfield) e he symbol hsymbol
    exact (h.mem_known_iff s.before symbol).mp hscope

/-- A draft is a problem exactly if it is one in another order. -/
theorem exists_build_iff (h : d.Reorders d') :
    (∃ p, d.build = .ok p) ↔ ∃ p', d'.build = .ok p' := by
  have hbuild (d : Draft) : (∃ p, d.build = .ok p) ↔ d.fault? = none := by
    simp only [build_eq_ok_iff]
    exact ⟨fun ⟨_, hsound, _⟩ ↦ hsound, fun hsound ↦ ⟨⟨d, hsound⟩, hsound, rfl⟩⟩
  rw [hbuild, hbuild]
  exact ⟨h.fault?_eq_none, h.symm.fault?_eq_none⟩

end Reorders

end Tradeoff.Draft
