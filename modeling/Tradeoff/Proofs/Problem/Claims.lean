import Tradeoff.Problem.Basic
import Tradeoff.Proofs.Table.Labels

/-!
# Claimed symbols of a problem

The symbols in scope in a stage are those that the decision variables and the earlier stages claim
(`Draft.known`). In a problem they are different identifiers, and they are all that an expression of
the stage mentions. The columns that the decision variables have in a batch, by their labels, and
the columns of all other fields, by the claimed symbols, have different symbols too
(`Problem.nodup_columns`).

The stages up to a stage are those before it and itself, so that a property of runs is proved by
`Stage.before_induction`, from one stage to the next.
-/

namespace Tradeoff

/-! ### Stages -/

namespace Stage

/-- What holds before the first stage and is kept by every stage holds before every stage. -/
theorem before_induction {motive : List Stage → Prop} (start : motive [])
    (step : ∀ s : Stage, motive s.before → motive s.upTo) (s : Stage) : motive s.before := by
  cases s with
  | constants => exact start
  | extraFunctions => exact step constants start
  | objectives => exact step extraFunctions (step constants start)
  | constraints => exact step objectives (step extraFunctions (step constants start))
  | scalarizations =>
    exact step constraints (step objectives (step extraFunctions (step constants start)))

/-- What holds before the first stage and is kept by every stage holds up to every stage. -/
theorem upTo_induction {motive : List Stage → Prop} (start : motive [])
    (step : ∀ s : Stage, motive s.before → motive s.upTo) (s : Stage) : motive s.upTo :=
  step s (before_induction start step s)

/-- Of the stages up to a stage, those in front of one of them are the stages before it. -/
theorem eq_before_of_upTo_eq {last s : Stage} {front rest : List Stage}
    (h : last.upTo = front ++ s :: rest) : front = s.before := by
  refine upTo_induction (motive := fun stages ↦ ∀ front rest : List Stage,
    stages = front ++ s :: rest → front = s.before) ?_ ?_ last front rest h
  · intro front rest h
    simp at h
  · intro r ih front rest h
    rcases List.eq_nil_or_concat rest with rfl | ⟨rest, t, rfl⟩
    · obtain ⟨hfront, hs⟩ := List.append_inj' h rfl
      cases hs
      exact hfront.symm
    · have hassoc : r.before ++ [r] = (front ++ s :: rest) ++ [t] := by
        simpa [Stage.upTo] using h
      exact ih front rest (List.append_inj' hassoc rfl).1

/-- The stages up to one are the first of all. -/
theorem upTo_prefix_all (s : Stage) : s.upTo <+: all := by
  cases s <;> decide

theorem self_mem_upTo (s : Stage) : s ∈ s.upTo :=
  List.mem_append_right _ (List.mem_singleton_self s)

theorem before_subset_upTo (s : Stage) : s.before ⊆ s.upTo := List.subset_append_left _ _

/-- An earlier stage has fewer stages before it. -/
theorem before_subset_of_mem_upTo {s last : Stage} (h : s ∈ last.upTo) :
    s.before ⊆ last.before := by
  revert h
  cases last <;> cases s <;> decide

end Stage

/-! ### Symbols of a draft -/

namespace Draft

variable (d : Draft)

/-- The symbols that the fields of a stage claim. -/
def stageClaims (s : Stage) : List String := (d.stageFields s).flatMap Field.claims

/-- The symbols that are claimed by decision variables and in some stages. -/
def known (stages : List Stage) : List String :=
  d.decisions.map (·.symbol) ++ stages.flatMap d.stageClaims

/-- The symbols of the columns that the decision variables have in a batch. -/
def inputLabels : List String := d.decisions.flatMap Variable.columnLabels

/-- The batch has a column for every scalar variable and every component of a vector variable. -/
def CoveredBy (batch : Table) : Prop := ∀ label ∈ d.inputLabels, label ∈ batch.symbols

instance (batch : Table) : Decidable (d.CoveredBy batch) :=
  inferInstanceAs (Decidable (∀ label ∈ d.inputLabels, label ∈ batch.symbols))

theorem known_before (s : Stage) : d.known s.before = d.scope s := rfl

theorem known_upTo (s : Stage) : d.known s.upTo = d.known s.before ++ d.stageClaims s := by
  simp [known, Stage.upTo]

/-- Decision variables and stages claim the same symbols as all fields in their order. -/
theorem known_all_perm : (d.known Stage.all).Perm d.claims := by
  have hclaims : d.claims =
      d.stageClaims .constants ++ (d.decisions.map (·.symbol) ++ (d.stageClaims .extraFunctions ++
        (d.stageClaims .objectives ++ (d.stageClaims .constraints ++
          d.stageClaims .scalarizations)))) := by
    have hdecisions : (d.decisions.map Field.decision).flatMap Field.claims =
        d.decisions.map (·.symbol) := by
      rw [List.flatMap_map]
      exact List.map_eq_flatMap.symm
    simp [claims, fields, stageClaims, stageFields, hdecisions, List.flatMap_append]
  have hknown : d.known Stage.all =
      d.decisions.map (·.symbol) ++ (d.stageClaims .constants ++ (d.stageClaims .extraFunctions ++
        (d.stageClaims .objectives ++ (d.stageClaims .constraints ++
          d.stageClaims .scalarizations)))) := by
    simp [known, Stage.all, Stage.upTo, Stage.before]
  rw [hclaims, hknown]
  exact List.perm_append_comm_assoc _ _ _

end Draft

/-! ### Sound problems -/

/-- Four things can be wrong with a draft. -/
theorem Draft.fault?_eq_none_iff {d : Draft} : d.fault? = none ↔
    d.objectives ≠ [] ∧ claimFault? [] d.claims = none ∧ d.expressionFault? = none ∧
      d.referenceFault? = none := by
  unfold Draft.fault?
  by_cases hempty : d.objectives = [] <;> simp [hempty]

namespace Problem

variable (p : Problem)

theorem faults_eq_none : claimFault? [] p.draft.claims = none ∧
    p.draft.expressionFault? = none ∧ p.draft.referenceFault? = none :=
  (Draft.fault?_eq_none_iff.mp p.sound).2

theorem isIdentifier_of_mem_claims {symbol : String} (h : symbol ∈ p.draft.claims) :
    isIdentifier symbol :=
  (claimFault?_eq_none_iff.mp p.faults_eq_none.1).1 symbol h

/-- No symbol that is known is claimed twice. -/
theorem nodup_known_upTo (s : Stage) : (p.draft.known s.upTo).Nodup := by
  have hall : (p.draft.known Stage.all).Nodup :=
    p.draft.known_all_perm.nodup_iff.mpr (claimFault?_eq_none_iff.mp p.faults_eq_none.1).2.1
  obtain ⟨rest, hrest⟩ := s.upTo_prefix_all
  refine List.Nodup.sublist ?_ hall
  rw [← hrest, Draft.known, Draft.known, List.flatMap_append, ← List.append_assoc]
  exact List.sublist_append_left _ _

/-- All symbols that are known are identifiers. -/
theorem isIdentifier_of_mem_known_upTo {s : Stage} {symbol : String}
    (h : symbol ∈ p.draft.known s.upTo) : isIdentifier symbol := by
  refine p.isIdentifier_of_mem_claims (p.draft.known_all_perm.mem_iff.mp ?_)
  obtain ⟨rest, hrest⟩ := s.upTo_prefix_all
  rw [Draft.known, List.mem_append] at h ⊢
  rw [← hrest, List.flatMap_append, List.mem_append]
  exact h.imp id Or.inl

/-- The columns of variables and the columns of fields have different symbols. -/
theorem nodup_columns (s : Stage) :
    (p.draft.inputLabels ++ s.upTo.flatMap p.draft.stageClaims).Nodup := by
  have hknown := List.nodup_append.mp (p.nodup_known_upTo s)
  have hid (symbol : String) (h : symbol ∈ p.draft.known s.upTo) : isIdentifier symbol :=
    p.isIdentifier_of_mem_known_upTo h
  rw [List.nodup_append]
  refine ⟨nodup_flatMap_columnLabels (fun v hv ↦ ?_) hknown.1, hknown.2.1, ?_⟩
  · exact hid _ (List.mem_append_left _ (List.mem_map_of_mem hv))
  · rintro label hlabel _ hclaim rfl
    obtain ⟨v, hv, hmem⟩ := List.mem_flatMap.mp hlabel
    have hsymbol : label = v.symbol := Variable.eq_symbol_of_mem_columnLabels hmem
      (hid label (List.mem_append_right _ hclaim))
    exact hknown.2.2 v.symbol (List.mem_map_of_mem hv) label hclaim hsymbol.symm

/-- An expression of a field mentions only what is in scope in the stage of the field. -/
theorem mem_scope_of_mem_mentions {s : Stage} {field : Field}
    (hfield : field ∈ p.draft.stageFields s)
    {e : Expr} (he : field.expr? = some e) {symbol : String} (h : symbol ∈ e.mentions) :
    symbol ∈ p.draft.scope s :=
  Draft.referenceFault?_eq_none_iff.mp p.faults_eq_none.2.2 s field hfield e he symbol h

end Problem

end Tradeoff
