import Mathlib.Data.List.Perm.Basic
import Tradeoff.Proofs.Evaluation.RowRun
import Tradeoff.Proofs.Evaluation.Solution
import Tradeoff.Proofs.Problem.Order

/-!
# The order of evaluation

Fields of one stage do not see each other, so that nothing but the order of columns and failures in
a result depends on the order in which they are evaluated. The equations that a result solves have
one solution: whatever the order of the fields, every symbol is bound to the same
(`Problem.Solved.find?_congr`), and so the results are the same up to order
(`Problem.Solved.perm`). Where one problem can be evaluated, so can be the other, stage by stage
(`Problem.Solved.exists_reordered`). `Draft.Reorders.evaluate_perm` puts this together.
-/

namespace Tradeoff

theorem SymbolMap.find?_eq_of_perm {α : Type} {m m' : SymbolMap α}
    (h : m.entries.Perm m'.entries) (symbol : String) : m.find? symbol = m'.find? symbol := by
  ext value
  rw [find?_eq_some_iff, find?_eq_some_iff, h.mem_iff]

theorem Draft.Reorders.fieldsOf {d d' : Draft} (h : d.Reorders d') (stages : List Stage) :
    (d.fieldsOf stages).Perm (d'.fieldsOf stages) :=
  List.Perm.flatMap_left stages fun s _ ↦ h.stageFields s

namespace Problem

variable {p p' : Problem} {batch : Table} {policy : Policy} {stages stages' : List Stage}
  {progress progress' : Progress}

/-! ### Uniqueness -/

/-- What a field contributes is decided by what is in scope in its stage. -/
theorem contribute_congr {s : Stage} {field : Field} (hfield : field ∈ p.draft.stageFields s)
    {env env' : Environment} (hrows : env.rows = env'.rows)
    (h : ∀ symbol ∈ p.draft.scope s, env.find? symbol = env'.find? symbol) (policy : Policy) :
    field.contribute env policy = field.contribute env' policy :=
  Field.contribute_congr policy hrows fun _ he symbol hsymbol ↦
    h symbol (p.mem_scope_of_mem_mentions hfield he hsymbol)

namespace Solved

/-- Two solutions bind every symbol of the stages that they share to the same. -/
theorem find?_congr (horder : p.draft.Reorders p'.draft)
    (h : p.Solved batch policy stages progress) (h' : p'.Solved batch policy stages' progress')
    (s : Stage) (hstages : s.before ⊆ stages) (hstages' : s.before ⊆ stages') :
    ∀ symbol ∈ p.draft.scope s, progress.env.find? symbol = progress'.env.find? symbol := by
  refine Stage.before_induction (motive := fun earlier ↦ earlier ⊆ stages → earlier ⊆ stages' →
    ∀ symbol ∈ p.draft.known earlier, progress.env.find? symbol = progress'.env.find? symbol)
    ?_ ?_ s hstages hstages'
  · intro _ _ symbol hsymbol
    rw [Draft.known, List.flatMap_nil, List.append_nil] at hsymbol
    obtain ⟨v, hv, rfl⟩ := List.mem_map.mp hsymbol
    rw [h.find?_variable hv, h'.find?_variable (horder.decisions.mem_iff.mp hv)]
  · intro r ih hsub hsub' symbol hsymbol
    have hbefore := ih (List.Subset.trans r.before_subset_upTo hsub)
      (List.Subset.trans r.before_subset_upTo hsub')
    rw [Draft.known_upTo, List.mem_append] at hsymbol
    rcases hsymbol with hsymbol | hsymbol
    · exact hbefore symbol hsymbol
    · obtain ⟨field, hfield, hclaim⟩ := List.mem_flatMap.mp hsymbol
      have hr := r.self_mem_upTo
      have hmem : field ∈ p.draft.fieldsOf stages := Draft.mem_fieldsOf.mpr ⟨r, hsub hr, hfield⟩
      have hmem' : field ∈ p'.draft.fieldsOf stages' :=
        Draft.mem_fieldsOf.mpr ⟨r, hsub' hr, (horder.stageFields r).mem_iff.mp hfield⟩
      have hsame := contribute_congr hfield (h.rows.trans h'.rows.symm) hbefore policy
      rw [h.contributes field hmem, h'.contributes field hmem', Except.ok.injEq] at hsame
      have hclaims := (Field.of_contribute_eq_ok (h.contributes field hmem)).1
      rw [← hclaims] at hclaim
      obtain ⟨⟨_, binding⟩, hbinding, rfl⟩ := List.mem_map.mp hclaim
      rw [h.find?_contributed hmem hbinding, h'.find?_contributed hmem' (hsame ▸ hbinding)]

/-- Two solutions have the same columns and the same failures up to their order. -/
theorem perm (horder : p.draft.Reorders p'.draft) {last : Stage}
    (h : p.Solved batch policy last.upTo progress)
    (h' : p'.Solved batch policy last.upTo progress') :
    progress.soFar.table.columns.entries.Perm progress'.soFar.table.columns.entries ∧
      progress.soFar.failures.Perm progress'.soFar.failures := by
  have hcontributed (field : Field) (hfield : field ∈ p.draft.fieldsOf last.upTo) :
      field.contributed progress.env policy = field.contributed progress'.env policy := by
    obtain ⟨s, hs, hmem⟩ := Draft.mem_fieldsOf.mp hfield
    have hsub : s.before ⊆ last.upTo :=
      List.Subset.trans (Stage.before_subset_of_mem_upTo hs) last.before_subset_upTo
    rw [Field.contributed, Field.contributed, contribute_congr hmem (h.rows.trans h'.rows.symm)
      (h.find?_congr horder h' s hsub hsub) policy]
  have hflatMap {β : Type} (f : Contribution → List β) :
      ((p.draft.fieldsOf last.upTo).flatMap fun field ↦
          f (field.contributed progress.env policy)).Perm
        ((p'.draft.fieldsOf last.upTo).flatMap fun field ↦
          f (field.contributed progress'.env policy)) :=
    (horder.fieldsOf last.upTo).flatMap fun field hfield ↦
      List.Perm.of_eq (congrArg f (hcontributed field hfield))
  rw [h.entries, h'.entries, h.failures, h'.failures]
  exact ⟨(horder.decisions.flatMap_right _).append ((hflatMap (·.bindings)).filterMap _),
    hflatMap (·.failures)⟩

/-! ### Existence -/

/-- If the equations of a problem have a solution, those of the problem in another order are
solved by its run. -/
theorem exists_reordered (horder : p.draft.Reorders p'.draft) {last : Stage}
    (h : p.Solved batch policy last.upTo progress) :
    ∃ start' progress', p'.start batch = .ok start' ∧
      (p'.runStages policy start' last.upTo).result = .ok progress' := by
  have hinputs (v : Variable) (hv : v ∈ p'.draft.decisions) : v.input batch = .ok (v.given batch) :=
    h.inputs v (horder.decisions.mem_iff.mpr hv)
  obtain ⟨start', hstart', -⟩ := exists_start (coveredBy_of_inputs hinputs)
  have hrun := Stage.upTo_induction (motive := fun earlier ↦ earlier ⊆ last.upTo →
    ∃ progress', (p'.runStages policy start' earlier).result = .ok progress' ∧
      p'.Solved batch policy earlier progress') ?_ ?_ last (List.Subset.refl _)
  · obtain ⟨progress', hresult, -⟩ := hrun
    exact ⟨start', progress', hstart', hresult⟩
  · exact fun _ ↦ ⟨start', rfl, solved_start hstart' policy⟩
  · intro s ih hsub
    have hbefore : s.before ⊆ last.upTo := List.Subset.trans s.before_subset_upTo hsub
    obtain ⟨reached, hreached, hsolved⟩ := ih hbefore
    -- Every field of the stage contributes what it contributes to the solution.
    obtain ⟨cs, hcs⟩ :
        ∃ cs, contributions reached.env policy (p'.draft.stageFields s) = .ok cs := by
      refine ⟨_, contributions_eq_ok_iff.mpr ⟨fun field hfield ↦ ?_, rfl⟩⟩
      have hfield' := (horder.stageFields s).mem_iff.mpr hfield
      have hmem : field ∈ p.draft.fieldsOf last.upTo :=
        Draft.mem_fieldsOf.mpr ⟨s, hsub s.self_mem_upTo, hfield'⟩
      have hsame := contribute_congr hfield' (h.rows.trans hsolved.rows.symm)
        (h.find?_congr horder hsolved s hbefore (List.Subset.refl _)) policy
      have hok := hsame.symm.trans (h.contributes field hmem)
      rw [hok, Field.contributed_of_contribute hok]
    obtain ⟨table, hadvance, -⟩ := hsolved.exists_completed hcs
    have hstage : (p'.runStage policy reached s).result =
        .ok (p'.completed reached s cs table) := runStage_eq_ok_iff.mpr ⟨cs, hcs, hadvance⟩
    exact ⟨_, runStages_upTo_eq_ok_iff.mpr ⟨reached, hreached, hstage⟩,
      (hsolved.runStage hstage).1⟩

end Solved

theorem exists_evaluate_reordered (horder : p.draft.Reorders p'.draft) {plan : Plan}
    {result : Evaluation} (h : p.evaluate batch plan = .ok result) :
    ∃ result', p'.evaluate batch plan = .ok result' := by
  obtain ⟨progress, -, hsolved, -⟩ := exists_solved h
  obtain ⟨start', progress', hstart', hrun⟩ := hsolved.exists_reordered horder
  exact ⟨progress'.soFar, evaluate_eq_ok_iff.mpr ⟨start', progress', hstart', hrun, rfl⟩⟩

end Problem

/-! ### Drafts -/

/-- A draft is a problem in one order of its fields exactly if it is in another. The problem can be
evaluated over a batch in one order exactly if it can be in the other, and then the results have the
same columns under the same symbols and the same failures, up to their order. -/
theorem Draft.Reorders.evaluate_perm {d d' : Draft} (h : d.Reorders d') :
    ((∃ p, d.build = .ok p) ↔ ∃ p', d'.build = .ok p') ∧
    ∀ p p', d.build = .ok p → d'.build = .ok p' → ∀ batch plan,
      ((∃ result, p.evaluate batch plan = .ok result) ↔
        ∃ result', p'.evaluate batch plan = .ok result') ∧
      ∀ result result', p.evaluate batch plan = .ok result →
        p'.evaluate batch plan = .ok result' →
        (∀ symbol, result.table.find? symbol = result'.table.find? symbol) ∧
        result.table.columns.entries.Perm result'.table.columns.entries ∧
        result.failures.Perm result'.failures := by
  refine ⟨h.exists_build_iff, fun p p' hp hp' batch plan ↦ ?_⟩
  obtain ⟨-, rfl⟩ := build_eq_ok_iff.mp hp
  obtain ⟨-, rfl⟩ := build_eq_ok_iff.mp hp'
  refine ⟨⟨fun ⟨result, hresult⟩ ↦ Problem.exists_evaluate_reordered h hresult,
    fun ⟨result', hresult'⟩ ↦ Problem.exists_evaluate_reordered h.symm hresult'⟩,
    fun result result' hresult hresult' ↦ ?_⟩
  obtain ⟨progress, rfl, hsolved, -⟩ := Problem.exists_solved hresult
  obtain ⟨progress', rfl, hsolved', -⟩ := Problem.exists_solved hresult'
  obtain ⟨hcolumns, hfailures⟩ := hsolved.perm h hsolved'
  exact ⟨fun symbol ↦ SymbolMap.find?_eq_of_perm hcolumns symbol, hcolumns, hfailures⟩

/-- A draft with two objectives, of which the second has no value at zero. -/
def pairDraft : Draft :=
  { quotientDraft with
    objectives :=
      [⟨"f", "f", some (.symbol "x"), true, none, none⟩,
        ⟨"g", "g", some (.divide (.number 1) (.symbol "x")), false, none, none⟩] }

/-- The objectives in the other order have the same columns and the same failure. -/
theorem pairDraft_evaluate_perm :
    ∃ p p' result result', pairDraft.build = .ok p ∧
      { pairDraft with objectives := pairDraft.objectives.reverse }.build = .ok p' ∧
      p.evaluate quotientBatch ⟨.perRow, .scalarizations⟩ = .ok result ∧
      p'.evaluate quotientBatch ⟨.perRow, .scalarizations⟩ = .ok result' ∧
      result.table.find? "g_min" = result'.table.find? "g_min" ∧
      result.failures.Perm result'.failures := by
  have horder : pairDraft.Reorders
      { pairDraft with objectives := pairDraft.objectives.reverse } :=
    ⟨.refl _, .refl _, .refl _, (List.reverse_perm _).symm, .refl _, .refl _, rfl⟩
  obtain ⟨hbuild, hevaluate⟩ := horder.evaluate_perm
  have hok : pairDraft.build.toOption.any fun p ↦
      (p.evaluate quotientBatch ⟨.perRow, .scalarizations⟩).isOk := by
    decide +kernel
  rcases hp : pairDraft.build with error | p
  · rw [hp] at hok
    cases hok
  · obtain ⟨p', hp'⟩ := hbuild.mp ⟨p, hp⟩
    obtain ⟨hsucceeds, hresults⟩ := hevaluate p p' hp hp' quotientBatch ⟨.perRow, .scalarizations⟩
    rcases hresult : p.evaluate quotientBatch ⟨.perRow, .scalarizations⟩ with error | result
    · rw [hp, Except.toOption, Option.any_some, hresult] at hok
      cases hok
    · obtain ⟨result', hresult'⟩ := hsucceeds.mp ⟨result, hresult⟩
      obtain ⟨hfind, -, hfailures⟩ := hresults result result' hresult hresult'
      exact ⟨p, p', result, result', rfl, hp', hresult, hresult', hfind "g_min", hfailures⟩

end Tradeoff
