import Tradeoff.Proofs.Evaluation.Scalarizing
import Tradeoff.Proofs.Problem.Mirror

/-!
# Evaluating in the other direction

A problem in which some objectives are written in the other direction (`Problem.mirror`) is
evaluated as the problem itself, provided that constraints and scalarizations know these objectives
by their aliases only (`Draft.SeesAliases`): the columns of the mirrored objectives are negated, and
everything else is the same, failures and errors included (`Problem.evaluatesAs_mirror`).

A negated expression has the negated column, and negating it again for the alias gives the column
that the alias had before (`Field.contribute_mirrorIn`). Every other field contributes what it did,
since the environments differ in symbols only that it does not mention. A stage keeps two states
alike in this way (`Problem.exists_runStage_mirror`), and so does a run.

As scalarizations are made of aliases, they may be added to both problems
(`Problem.directions_make_no_difference`).
-/

namespace Tradeoff

/-! ### Negated columns -/

theorem Operator.apply_negate (x : Float) : Operator.negate.apply [x] = .ok (-x) := by
  cases hx : x.isNaN with
  | true =>
    rw [eq_notANumber hx, neg_notANumber]
    rfl
  | false =>
    have hneg : (-x).isNaN = false := (isNaN_neg x).trans hx
    simp only [apply, List.any_cons, List.any_nil, hx, value, hneg, Bool.or_self]
    rfl

namespace Scene

/-- Negation has no faults: the column is negated, value by value. -/
theorem applyRows_negate (scene : Scene) (node : Expr) {column : Column}
    (h : column.Fits scene.env.rows) :
    scene.applyRows node .negate [column] = .succeed (column.map fun value ↦ -value) := by
  cases column with
  | constant value =>
    have hconstants : constants? [.constant value] = some [value] := rfl
    simp only [applyRows_of_constants hconstants, Operator.apply_negate, faultOf?,
      rowFailures_none]
    rfl
  | samples values =>
    have hconstants : constants? [.samples values] = none := rfl
    have hvalues : (Array.range scene.env.rows).map (fun sample ↦
        -(Column.samples values).get sample) = values.map fun value ↦ -value := by
      have hsize : values.size = scene.env.rows := h
      refine Array.ext (by simp [hsize]) fun sample hsample _ ↦ ?_
      have hlt : sample < values.size := by simpa [hsize] using hsample
      simp [Column.get, hlt]
    simp only [applyRows_of_samples hconstants, List.map_cons, List.map_nil, Operator.apply_negate,
      faultOf?, rowFailures_none, valueOf, hvalues]
    rfl

end Scene

/-- A negated expression has the negated column. It fails where the expression fails, in the same
way, and also ends in the same error. -/
theorem Expr.attemptColumn_negate (scene : Scene) (e : Expr) :
    e.negate.attemptColumn scene =
      (e.attemptColumn scene).andThen fun column ↦
        .succeed (column.map fun value ↦ -value) := by
  have hexpand (value : Value) : (scene.expand .negate e value).andThen
        (fun columns ↦ (attemptColumns scene .negate []).andThen fun rest ↦
          .succeed (columns ++ rest)) =
      (scene.needScalar e value).andThen fun column ↦ .succeed [column] := by
    cases value <;> simp [Scene.expand, Scene.needScalar, attemptColumns, Operator.expandsVectors]
  have hcolumns : attemptColumns scene .negate [e] =
      (e.attemptColumn scene).andThen fun column ↦ .succeed [column] := by
    rw [attemptColumns_cons, attemptColumn_eq, Attempt.andThen_assoc]
    exact Attempt.andThen_congr fun value _ ↦ hexpand value
  rw [attemptColumn_eq, negate, attempt_applied scene (by decide) rfl, hcolumns,
    Attempt.andThen_assoc, Attempt.andThen_assoc]
  refine Attempt.andThen_congr fun column hcolumn ↦ ?_
  rw [Attempt.succeed_andThen, Attempt.andThen_assoc,
    scene.applyRows_negate _ ((e.attemptColumn_ends scene).of_ok hcolumn), Attempt.succeed_andThen,
    Attempt.succeed_andThen]
  rfl

/-- Changing the value afterwards makes no difference to what is settled. -/
theorem Policy.settle_map {α β : Type} (policy : Policy) (a : Attempt Failure α) (g : α → β) :
    policy.settle (a.andThen fun value ↦ .succeed (g value)) =
      (policy.settle a).map fun settled ↦ (g settled.1, settled.2) := by
  obtain ⟨notes, error | value⟩ := a
  · cases policy <;> cases notes <;> rfl
  · rw [Attempt.andThen_ok]
    cases policy <;> cases notes <;> simp [settle, Attempt.succeed, Except.map]

/-! ### Mirrored fields -/

/-- The binding with the other sign, if it is a scalar. -/
def Binding.negate : Binding → Binding
  | scalar column => .scalar (column.map fun value ↦ -value)
  | binding => binding

/-- What a field contributes, with the columns of mirrored objectives negated. -/
def Contribution.mirrorIn (turned : List String) (c : Contribution) : Contribution :=
  { c with bindings := c.bindings.map (negateEntry turned Binding.negate) }

theorem Contribution.mirrorIn_of_not_mem {turned : List String} {c : Contribution}
    (h : ∀ entry ∈ c.bindings, entry.1 ∉ turned) : c.mirrorIn turned = c := by
  rw [mirrorIn, map_negateEntry_of_not_mem h]

namespace Field

/-- Of what the field claims, only the own symbol of an objective is one of these. -/
structure Turns (turned : List String) (field : Field) : Prop where
  /-- Only objectives are mirrored. -/
  symbol : field.symbol ∈ turned → ∃ f, field = .objective f
  /-- Aliases are not. -/
  aliases : ∀ symbol ∈ field.aliases, symbol ∉ turned

variable {turned : List String} {env env' : Environment} {policy : Policy} {field : Field}

/-- A mirrored objective with its column negated binds the negated column, and to its alias what was
bound before. -/
theorem bindings_mirror {f : Objective} (hsymbol : f.symbol ∈ turned)
    (halias : minAlias f.symbol ∉ turned) (column : Column) :
    (objective f.mirror).bindings (column.map fun value ↦ -value) =
      ((objective f).bindings column).map (negateEntry turned Binding.negate) := by
  have horient : (column.map fun value ↦ -value).map f.mirror.orient = column.map f.orient := by
    cases column with
    | constant value => exact congrArg Column.constant (f.orient_mirror value)
    | samples values =>
      refine congrArg Column.samples (Array.map_map.trans ?_)
      exact congrArg (values.map ·) (funext f.orient_mirror)
  simp only [bindings, List.map_cons, List.map_nil, negateEntry, if_pos hsymbol, if_neg halias,
    horient]
  rfl

/-- The mirrored objective contributes the negated column under its symbol, and the same oriented
column. Any other field contributes what it did. -/
theorem contribute_mirrorIn (h : field.Turns turned) (hrows : env.rows = env'.rows)
    (hbound : ∀ e, field.expr? = some e → ∀ symbol ∈ e.mentions,
      env.find? symbol = env'.find? symbol) (policy : Policy) :
    (field.mirrorIn turned).contribute env' policy =
      (field.contribute env policy).map (Contribution.mirrorIn turned) := by
  rw [contribute_congr policy hrows hbound]
  by_cases hturned : field.symbol ∈ turned
  · obtain ⟨f, rfl⟩ := h.symbol hturned
    have halias : minAlias f.symbol ∉ turned := h.aliases _ (List.mem_singleton_self _)
    have hmirror : (objective f).mirrorIn turned = .objective f.mirror :=
      congrArg objective (if_pos hturned)
    have hnegated : (objective f.mirror).expr? = f.expr?.map Expr.negate := rfl
    have hown : (objective f).expr? = f.expr? := rfl
    rw [hmirror]
    cases hexpr : f.expr? with
    | none =>
      rw [hexpr] at hnegated hown
      rw [contribute_of_no_expr? hnegated nofun, contribute_of_no_expr? hown nofun]
      rfl
    | some e =>
      rw [hexpr] at hnegated hown
      rw [contribute_of_expr? hnegated, contribute_of_expr? hown, Expr.attemptColumn_negate,
        Policy.settle_map]
      show ((policy.settle (e.attemptColumn ⟨env', some f.symbol⟩)).map _).map _ =
        ((policy.settle (e.attemptColumn ⟨env', some f.symbol⟩)).map _).map _
      rcases policy.settle (e.attemptColumn ⟨env', some f.symbol⟩) with error | ⟨column, failures⟩
      · rfl
      · simp only [Except.map, Contribution.mirrorIn, bindings_mirror hturned halias]
  · have hsame : field.mirrorIn turned = field := by
      cases field with
      | objective f => exact congrArg objective (if_neg hturned)
      | _ => rfl
    rw [hsame]
    rcases hcontribute : field.contribute env' policy with error | c
    · rfl
    · refine congrArg Except.ok (Contribution.mirrorIn_of_not_mem fun entry hentry ↦ ?_).symm
      have hclaim : entry.1 ∈ field.claims :=
        (of_contribute_eq_ok hcontribute).1 ▸ List.mem_map_of_mem hentry
      rw [claims_eq, List.mem_cons] at hclaim
      rcases hclaim with hclaim | hclaim
      · rwa [hclaim]
      · exact h.aliases _ hclaim

/-- What is mirrored is a scalar. -/
theorem Turns.exists_scalar (h : field.Turns turned) {c : Contribution}
    (hc : field.contribute env policy = .ok c) {entry : String × Binding}
    (hentry : entry ∈ c.bindings) (hturned : entry.1 ∈ turned) :
    ∃ column, entry.2 = .scalar column := by
  have hclaim : entry.1 ∈ field.claims := (of_contribute_eq_ok hc).1 ▸ List.mem_map_of_mem hentry
  rw [claims_eq, List.mem_cons] at hclaim
  rcases hclaim with hclaim | hclaim
  · obtain ⟨f, rfl⟩ := h.symbol (hclaim ▸ hturned)
    rcases (objective f).expr?_cases with ⟨e, hexpr⟩ | ⟨c, hconstant⟩ | ⟨hexpr, hno⟩
    · rw [contribute_of_expr? hexpr] at hc
      obtain ⟨⟨column, failures⟩, -, rfl⟩ := map_eq_ok_iff.mp hc
      rcases List.mem_cons.mp hentry with rfl | hentry
      · exact ⟨column, rfl⟩
      · rw [List.mem_singleton.mp hentry]
        exact ⟨_, rfl⟩
    · cases hconstant
    · rw [contribute_of_no_expr? hexpr hno] at hc
      cases hc
  · exact absurd hturned (h.aliases _ hclaim)

end Field

/-- The fields of a stage contribute the same, but for the bindings that are negated. -/
theorem contributions_mirrorIn {turned : List String} {env env' : Environment}
    (hrows : env.rows = env'.rows) {fields : List Field}
    (h : ∀ field ∈ fields, field.Turns turned)
    (hbound : ∀ field ∈ fields, ∀ e, field.expr? = some e → ∀ symbol ∈ e.mentions,
      env.find? symbol = env'.find? symbol) (policy : Policy) :
    contributions env' policy (fields.map (Field.mirrorIn turned)) =
      (contributions env policy fields).map (List.map (Contribution.mirrorIn turned)) := by
  induction fields with
  | nil => rfl
  | cons field fields ih =>
    obtain ⟨hfield, hfields⟩ := List.forall_mem_cons.mp h
    obtain ⟨hown, hrest⟩ := List.forall_mem_cons.mp hbound
    rw [List.map_cons, contributions, contributions,
      Field.contribute_mirrorIn hfield hrows hown policy, ih hfields hrest]
    rcases field.contribute env policy with error | c
    · rfl
    · rcases contributions env policy fields with error | cs <;> rfl

/-- Negated scalars have negated columns. -/
theorem bindingColumns_negate {turned : List String} (rows : Nat)
    {bindings : List (String × Binding)}
    (h : ∀ entry ∈ bindings, entry.1 ∈ turned → ∃ column, entry.2 = .scalar column) :
    bindingColumns rows (bindings.map (negateEntry turned Binding.negate)) =
      (bindingColumns rows bindings).map
        (negateEntry turned fun values ↦ values.map fun value ↦ -value) := by
  have hcolumn (column : Column) : (column.map fun value ↦ -value).broadcast rows =
      (column.broadcast rows).map fun value ↦ -value := by
    cases column with
    | constant value => exact Array.map_replicate.symm
    | samples values => rfl
  induction bindings with
  | nil => rfl
  | cons entry bindings ih =>
    obtain ⟨symbol, binding⟩ := entry
    obtain ⟨hfirst, hrest⟩ := List.forall_mem_cons.mp h
    have ih := ih hrest
    rw [bindingColumns, bindingColumns] at ih ⊢
    rw [List.map_cons, List.filterMap_cons, List.filterMap_cons, ih]
    by_cases hturned : symbol ∈ turned
    · obtain ⟨column, rfl⟩ := hfirst hturned
      simp [negateEntry, hturned, Binding.negate, Binding.column?, hcolumn]
    · cases hvalues : binding.column? rows <;> simp [negateEntry, hturned, hvalues]

/-! ### Mirrored states -/

/-- The symbols are those of objectives, and constraints and scalarizations mention none of them, so
that they know these objectives by their aliases only. -/
structure Draft.SeesAliases (d : Draft) (turned : List String) : Prop where
  /-- They are symbols of objectives. -/
  objective : ∀ symbol ∈ turned, ∃ f ∈ d.objectives, f.symbol = symbol
  /-- Constraints do not mention them. -/
  constraint : ∀ c ∈ d.constraints, ∀ symbol ∈ c.expr.mentions, symbol ∉ turned
  /-- Scalarizations do not mention them. -/
  scalarization : ∀ g ∈ d.scalarizations, ∀ symbol ∈ g.expr.mentions, symbol ∉ turned

/-- The second state is the first with the columns of mirrored objectives negated. -/
structure Progress.Mirrors (turned : List String) (progress mirrored : Progress) : Prop where
  /-- The bindings. -/
  bindings : mirrored.env.bindings.entries =
    progress.env.bindings.entries.map (negateEntry turned Binding.negate)
  /-- The columns. -/
  entries : mirrored.soFar.table.columns.entries = progress.soFar.table.columns.entries.map
    (negateEntry turned fun values ↦ values.map fun value ↦ -value)
  /-- The failures are the same. -/
  failures : mirrored.soFar.latestFailures = progress.soFar.latestFailures
  /-- The status is the same. -/
  status : mirrored.soFar.status = progress.soFar.status
  /-- The same constraints are on record. -/
  constraints : mirrored.soFar.constraints? = progress.soFar.constraints?

theorem Progress.Mirrors.find?_eq {turned : List String} {progress mirrored : Progress}
    (h : progress.Mirrors turned mirrored) {symbol : String} (hsymbol : symbol ∉ turned) :
    progress.env.find? symbol = mirrored.env.find? symbol := by
  have hlookup := lookup_negateEntry turned Binding.negate progress.env.bindings.entries symbol
  simp only [if_neg hsymbol, Option.map_id'] at hlookup
  rw [← h.bindings] at hlookup
  exact hlookup.symm

namespace Problem

variable {p : Problem} {turned : List String} {batch : Table} {policy : Policy}

section SeesAliases

variable (h : p.draft.SeesAliases turned)

include h

/-- Every field of the problem can be mirrored: its symbol is mirrored if it is an objective, and no
alias is. -/
theorem turns_of_mem_stageFields {s : Stage} {field : Field}
    (hfield : field ∈ p.draft.stageFields s) : field.Turns turned where
  symbol hturned := by
    obtain ⟨f, hf, hsymbol⟩ := h.objective field.symbol hturned
    have hmem : .objective f ∈ p.draft.fields :=
      Draft.mem_fields_of_mem_stageFields (s := .objectives) (List.mem_map_of_mem hf)
    have hclaim : field.symbol ∈ (Field.objective f).claims :=
      hsymbol ▸ Field.symbol_mem_claims _
    exact ⟨f, Draft.eq_of_mem_claims p.isSound.nodup_claims
      (Draft.mem_fields_of_mem_stageFields hfield) hmem field.symbol_mem_claims hclaim⟩
  aliases symbol hsymbol hturned := by
    cases field with
    | objective f =>
      obtain ⟨g, hg, rfl⟩ := h.objective symbol hturned
      exact p.isSound.symbol_ne_minAlias (Draft.mem_objectives hfield) hg
        (List.mem_singleton.mp hsymbol)
    | _ => exact absurd hsymbol List.not_mem_nil

/-- No expression mentions a mirrored objective by its symbol: before the objectives have been
evaluated, it is not in scope. -/
theorem not_mem_turned_of_mentions {s : Stage} {field : Field}
    (hfield : field ∈ p.draft.stageFields s) {e : Expr} (he : field.expr? = some e)
    {symbol : String} (hsymbol : symbol ∈ e.mentions) :
    symbol ∉ turned := by
  intro hturned
  have hvisible := p.isSound.references s field hfield e he symbol hsymbol
  obtain ⟨f, hf, rfl⟩ := h.objective symbol hturned
  have hmem : .objective f ∈ p.draft.fields :=
    Draft.mem_fields_of_mem_stageFields (s := .objectives) (List.mem_map_of_mem hf)
  have hrank : 3 ≤ s.before.length :=
    p.isSound.rank_le_of_visible hvisible hmem (Field.symbol_mem_claims _)
  cases s with
  | constraints =>
    obtain ⟨c, hc, rfl⟩ := List.mem_map.mp hfield
    cases he
    exact h.constraint c hc f.symbol hsymbol hturned
  | scalarizations =>
    obtain ⟨g, hg, rfl⟩ := List.mem_map.mp hfield
    cases he
    exact h.scalarization g hg f.symbol hsymbol hturned
  | constants | extraFunctions | objectives => exact absurd hrank (by decide)

/-- In mirrored states the fields of a stage contribute the same up to the signs of mirrored
objectives. -/
theorem contributions_mirror {s : Stage} {progress mirrored : Progress}
    (hrows : progress.env.rows = mirrored.env.rows) (hmirrors : progress.Mirrors turned mirrored)
    (policy : Policy) :
    contributions mirrored.env policy ((p.mirror turned).draft.stageFields s) =
      (contributions progress.env policy (p.draft.stageFields s)).map
        (List.map (Contribution.mirrorIn turned)) := by
  have hfields : (p.mirror turned).draft.stageFields s =
      (p.draft.stageFields s).map (Field.mirrorIn turned) := p.draft.stageFields_mirror turned s
  rw [hfields]
  exact contributions_mirrorIn hrows (fun field ↦ turns_of_mem_stageFields h)
    (fun field hfield e he symbol hsymbol ↦
      hmirrors.find?_eq (not_mem_turned_of_mentions h hfield he hsymbol)) policy

/-- What is mirrored of the bindings of a stage are scalars. -/
theorem exists_scalar_of_mem_bindings {s : Stage} {env : Environment} {cs : List Contribution}
    (hcs : contributions env policy (p.draft.stageFields s) = .ok cs) {entry : String × Binding}
    (hentry : entry ∈ cs.flatMap (·.bindings)) (hturned : entry.1 ∈ turned) :
    ∃ column, entry.2 = .scalar column := by
  obtain ⟨hcontributes, rfl⟩ := contributions_eq_ok_iff.mp hcs
  rw [List.flatMap_map] at hentry
  obtain ⟨field, hfield, hmem⟩ := List.mem_flatMap.mp hentry
  exact (turns_of_mem_stageFields h hfield).exists_scalar (hcontributes field hfield) hmem hturned

/-- A stage ends in the same error, or again in mirrored states. -/
theorem exists_runStage_mirror {s : Stage} {progress mirrored : Progress}
    (hconsistent : p.Consistent batch s.before progress)
    (hconsistent' : (p.mirror turned).Consistent batch s.before mirrored)
    (hmirrors : progress.Mirrors turned mirrored) :
    (∃ error, (p.runStage policy progress s).result = .error error ∧
      ((p.mirror turned).runStage policy mirrored s).result = .error error) ∨
    ∃ next next', (p.runStage policy progress s).result = .ok next ∧
      ((p.mirror turned).runStage policy mirrored s).result = .ok next' ∧
      p.Consistent batch s.upTo next ∧ (p.mirror turned).Consistent batch s.upTo next' ∧
      next.Mirrors turned next' := by
  have hcontributions := contributions_mirror h (s := s)
    (hconsistent.rows.trans hconsistent'.rows.symm) hmirrors policy
  rcases hcs : contributions progress.env policy (p.draft.stageFields s) with error | cs
  · rw [hcs] at hcontributions
    refine .inl ⟨error, ?_, ?_⟩
    · rw [result_runStage, hcs]
      rfl
    · rw [result_runStage, hcontributions]
      rfl
  · rw [hcs] at hcontributions
    obtain ⟨table, hcompleted, hnext, hbindings, htable⟩ := hconsistent.exists_completed hcs
    obtain ⟨table', hcompleted', hnext', hbindings', htable'⟩ :=
      hconsistent'.exists_completed hcontributions
    have hadded : (cs.map (Contribution.mirrorIn turned)).flatMap (·.bindings) =
        (cs.flatMap (·.bindings)).map (negateEntry turned Binding.negate) := by
      rw [List.flatMap_map, List.map_flatMap]
      rfl
    have hfailures : (cs.map (Contribution.mirrorIn turned)).flatMap (·.failures) =
        cs.flatMap (·.failures) := List.flatMap_map ..
    refine .inr ⟨_, _, runStage_eq_ok_iff.mpr ⟨cs, hcs, hcompleted⟩,
      runStage_eq_ok_iff.mpr ⟨_, hcontributions, hcompleted'⟩, hnext, hnext', ?_, ?_, ?_,
      hmirrors.status, ?_⟩
    · rw [hbindings, hbindings', hadded, hmirrors.bindings, List.map_append]
    · rw [table_completed, table_completed, htable, htable', hadded, hmirrors.entries,
        bindingColumns_negate batch.rows fun entry ↦ exists_scalar_of_mem_bindings h hcs,
        List.map_append]
    · simp only [completed, Evaluation.recordAll, hfailures, hmirrors.failures]
    · have hconstraints : (p.mirror turned).draft.constraints = p.draft.constraints := rfl
      simp only [completed, Evaluation.recordAll, constraintsAfter, hconstraints,
        hmirrors.constraints]

/-- Before the first stage there is no objective to be mirrored. -/
theorem mirrors_start {start : Progress} (hstart : p.start batch = .ok start) :
    start.Mirrors turned start := by
  have hsolved := solved_start hstart .perRow
  have hclaimed (symbol : String) (hturned : symbol ∈ turned) :
      symbol ∈ Stage.objectives.upTo.flatMap p.draft.stageClaims := by
    obtain ⟨f, hf, rfl⟩ := h.objective symbol hturned
    exact List.mem_flatMap.mpr ⟨.objectives, by decide,
      List.mem_flatMap.mpr ⟨.objective f, List.mem_map_of_mem hf, List.mem_cons_self⟩⟩
  have hsymbols (entry : String × Binding) (hentry : entry ∈ start.env.bindings.entries) :
      entry.1 ∉ turned := fun hturned ↦ by
    have hbound : entry.1 ∈ p.draft.known [] := hsolved.bound ▸ List.mem_map_of_mem hentry
    rw [Draft.known, List.flatMap_nil, List.append_nil] at hbound
    exact (List.nodup_append.mp (p.nodup_known_upTo .objectives)).2.2 _ hbound _
      (hclaimed _ hturned) rfl
  have hlabels (entry : String × Array Float)
      (hentry : entry ∈ start.soFar.table.columns.entries) : entry.1 ∉ turned := fun hturned ↦ by
    have hlabel : entry.1 ∈ start.soFar.table.symbols := List.mem_map_of_mem hentry
    rw [hsolved.symbols, List.flatMap_nil, List.append_nil] at hlabel
    exact (List.nodup_append.mp (p.nodup_columns .objectives)).2.2 _ hlabel _
      (hclaimed _ hturned) rfl
  exact ⟨(map_negateEntry_of_not_mem hsymbols).symm, (map_negateEntry_of_not_mem hlabels).symm,
    rfl, rfl, rfl⟩

/-- A run ends in the same error, or in mirrored states. -/
theorem exists_runStages_mirror (policy : Policy) {start : Progress}
    (hstart : p.start batch = .ok start) (last : Stage) :
    (∃ error, (p.runStages policy start last.upTo).result = .error error ∧
      ((p.mirror turned).runStages policy start last.upTo).result = .error error) ∨
    ∃ next next', (p.runStages policy start last.upTo).result = .ok next ∧
      ((p.mirror turned).runStages policy start last.upTo).result = .ok next' ∧
      p.Consistent batch last.upTo next ∧ (p.mirror turned).Consistent batch last.upTo next' ∧
      next.Mirrors turned next' := by
  have hstart' : (p.mirror turned).start batch = .ok start := hstart
  refine Stage.upTo_induction (motive := fun stages ↦
    (∃ error, (p.runStages policy start stages).result = .error error ∧
      ((p.mirror turned).runStages policy start stages).result = .error error) ∨
    ∃ next next', (p.runStages policy start stages).result = .ok next ∧
      ((p.mirror turned).runStages policy start stages).result = .ok next' ∧
      p.Consistent batch stages next ∧ (p.mirror turned).Consistent batch stages next' ∧
      next.Mirrors turned next') ?_ ?_ last
  · exact .inr ⟨start, start, rfl, rfl, (solved_start hstart policy).toConsistent,
      (solved_start hstart' policy).toConsistent, mirrors_start h hstart⟩
  · rintro s (⟨error, herror, herror'⟩ |
      ⟨progress, mirrored, hrun, hrun', hprogress, hmirrored, hm⟩)
    · refine .inl ⟨error, ?_, ?_⟩
      · rw [runStages_upTo, herror]
        rfl
      · rw [runStages_upTo, herror']
        rfl
    · rw [runStages_upTo, runStages_upTo, hrun, hrun']
      exact exists_runStage_mirror h hprogress hmirrored hm

end SeesAliases

/-- The second result is the first with the columns of mirrored objectives negated. In particular,
aliases, constraints and scalarizations have the columns that they had. -/
structure SameBut (p : Problem) (turned : List String) (result mirrored : Evaluation) : Prop where
  /-- The oriented values are the same. -/
  oriented : ∀ f ∈ p.draft.objectives,
    mirrored.table.find? (minAlias f.symbol) = result.table.find? (minAlias f.symbol)
  /-- The values of constraints are the same. -/
  constraint : ∀ c ∈ p.draft.constraints,
    mirrored.table.find? c.symbol = result.table.find? c.symbol
  /-- The values of scalarizations are the same. -/
  scalarization : ∀ g ∈ p.draft.scalarizations,
    mirrored.table.find? g.symbol = result.table.find? g.symbol
  /-- The values of mirrored objectives are negated, and nothing else is. -/
  find? : ∀ label, mirrored.table.find? label =
    if label ∈ turned then (result.table.find? label).map fun values ↦ values.map fun value ↦ -value
    else result.table.find? label
  /-- The columns come in the same order. -/
  symbols : mirrored.table.symbols = result.table.symbols
  /-- The failures are the same. -/
  failures : mirrored.failures = result.failures

/-- States that mirror each other have results that are the same but for the mirrored columns. -/
theorem sameBut_of_mirrors (h : p.draft.SeesAliases turned) {progress mirrored : Progress}
    (hm : progress.Mirrors turned mirrored) : p.SameBut turned progress.soFar mirrored.soFar := by
  have hfind (label : String) : mirrored.soFar.table.find? label =
      if label ∈ turned then
        (progress.soFar.table.find? label).map fun values ↦ values.map fun value ↦ -value
      else progress.soFar.table.find? label := by
    show mirrored.soFar.table.columns.entries.lookup label = _
    rw [hm.entries, lookup_negateEntry]
    split
    · rfl
    · exact Option.map_id'
  have hother {s : Stage} (field : Field) (hfield : field ∈ p.draft.stageFields s)
      (hno : ∀ f, field ≠ .objective f) :
      mirrored.soFar.table.find? field.symbol = progress.soFar.table.find? field.symbol := by
    rw [hfind, if_neg]
    intro hturned
    obtain ⟨f, hf⟩ := (turns_of_mem_stageFields h hfield).symbol hturned
    exact hno f hf
  refine ⟨fun f hf ↦ ?_, fun c hc ↦ ?_, fun g hg ↦ ?_, hfind, ?_, ?_⟩
  · have hfield : .objective f ∈ p.draft.stageFields .objectives := List.mem_map_of_mem hf
    have halias : minAlias f.symbol ∉ turned :=
      (turns_of_mem_stageFields h hfield).aliases _ (List.mem_singleton_self _)
    rw [hfind, if_neg halias]
  · exact hother (s := .constraints) (.constraint c) (List.mem_map_of_mem hc) nofun
  · exact hother (s := .scalarizations) (.scalarization g) (List.mem_map_of_mem hg) nofun
  · show mirrored.soFar.table.columns.entries.map Prod.fst = _
    rw [hm.entries, List.map_map]
    rfl
  · rw [Evaluation.failures, hm.failures, Evaluation.failures]

/-- The second problem has a result where the first has one, the same up to the signs of mirrored
objectives, and else ends in the same error. -/
def EvaluatesAs (p : Problem) (turned : List String) (q : Problem) : Prop :=
  ∀ batch plan,
    (∃ error, p.evaluate batch plan = .error error ∧ q.evaluate batch plan = .error error) ∨
    ∃ result mirrored, p.evaluate batch plan = .ok result ∧ q.evaluate batch plan = .ok mirrored ∧
      p.SameBut turned result mirrored

/-- By the run through all stages, both problems end alike. -/
theorem evaluatesAs_mirror (h : p.draft.SeesAliases turned) :
    p.EvaluatesAs turned (p.mirror turned) := by
  intro batch plan
  have hsame : (p.mirror turned).start batch = p.start batch := rfl
  rw [evaluate_eq, evaluate_eq, hsame]
  rcases hstart : p.start batch with error | start
  · exact .inl ⟨error, rfl, rfl⟩
  · rcases exists_runStages_mirror h plan.policy hstart plan.last with
      ⟨error, herror, herror'⟩ | ⟨next, next', hnext, hnext', -, -, hm⟩
    · exact .inl ⟨error, by rw [Except.bind, herror]; rfl, by rw [Except.bind, herror']; rfl⟩
    · exact .inr ⟨next.soFar, next'.soFar, by rw [Except.bind, hnext]; rfl,
        by rw [Except.bind, hnext']; rfl, sameBut_of_mirrors h hm⟩

/-! ### Scalarizations -/

/-- What is added to both problems is mirrored with them, if it is made of the aliases. -/
theorem addScalarization_mirror (h : p.draft.SeesAliases turned) {q : Problem}
    {name symbol : String} {make make' : Scalarizer} {e : Expr}
    (hadded : p.addScalarization name symbol make = .ok q) (hmade : make p = .ok e)
    (hmade' : make' (p.mirror turned) = .ok e) (he : e.Combines p.draft.objectives) :
    (p.mirror turned).addScalarization name symbol make' = .ok (q.mirror turned) ∧
      q.EvaluatesAs turned (q.mirror turned) := by
  obtain ⟨e', haccepts, hq⟩ := addScalarization_eq_ok_iff.mp hadded
  cases hmade.symm.trans haccepts.made
  have hscope : (p.mirror turned).draft.scope .scalarizations = p.draft.scope .scalarizations :=
    p.draft.scope_mirror turned _
  have hnew : ¬ (p.mirror turned).draft.Taken symbol := by
    rw [← Draft.mem_claims_iff_taken]
    show symbol ∉ (p.draft.mirror turned).claims
    rw [Draft.claims_mirror, Draft.mem_claims_iff_taken]
    exact haccepts.new
  refine ⟨addScalarization_eq_ok_iff.mpr ⟨e, ⟨hnew, hmade', haccepts.identifier, ?_⟩, ?_⟩,
    evaluatesAs_mirror ⟨?_, ?_, ?_⟩⟩
  · rw [hscope]
    exact haccepts.inScope
  · show q.draft.mirror turned = _
    rw [hq]
    rfl
  · rw [hq]
    exact h.objective
  · rw [hq]
    exact h.constraint
  · rw [hq]
    intro g hg
    rcases List.mem_append.mp hg with hg | hg
    · exact h.scalarization g hg
    · rw [List.mem_singleton.mp hg]
      intro mention hmention hturned
      obtain ⟨f, hf, rfl⟩ := he.aliases mention hmention
      have hfield : .objective f ∈ p.draft.stageFields .objectives := List.mem_map_of_mem hf
      exact (turns_of_mem_stageFields h hfield).aliases _ (List.mem_singleton_self _) hturned

/-- It does not matter how the directions of objectives are written. Let some objectives be known to
constraints and scalarizations by their aliases only. If each of them is negated, with its best and
worst values, and its direction is changed, there is again a problem. It is evaluated as the old
one, and nothing but the columns of these objectives is another: they are negated. The same weights
make the same weighted sum for both problems, and so do the same reference values, negated for these
objectives, with the achievement function. Where one of these can be added to the old problem it can
be added to the new one, and the two problems with it are again evaluated in the same way. -/
theorem directions_make_no_difference (p : Problem) (turned : List String)
    (h : p.draft.SeesAliases turned) :
    (p.draft.mirror turned).build = .ok (p.mirror turned) ∧
    p.EvaluatesAs turned (p.mirror turned) ∧
    (∀ weights, weightedSum weights (p.mirror turned) = weightedSum weights p) ∧
    (∀ a : Achievement, (a.mirror turned).scalarizer (p.mirror turned) = a.scalarizer p) ∧
    ∀ name symbol q,
      (∀ weights, p.addScalarization name symbol (weightedSum weights) = .ok q →
        (p.mirror turned).addScalarization name symbol (weightedSum weights) =
          .ok (q.mirror turned) ∧
        q.EvaluatesAs turned (q.mirror turned)) ∧
      ∀ a : Achievement, p.addScalarization name symbol a.scalarizer = .ok q →
        (p.mirror turned).addScalarization name symbol (a.mirror turned).scalarizer =
          .ok (q.mirror turned) ∧
        q.EvaluatesAs turned (q.mirror turned) := by
  refine ⟨Draft.build_eq_ok_iff.mpr ⟨(p.mirror turned).sound, rfl⟩, evaluatesAs_mirror h,
    weightedSum_mirror p turned, Achievement.scalarizer_mirror p turned,
    fun name symbol q ↦ ⟨fun weights hadded ↦ ?_, fun a hadded ↦ ?_⟩⟩
  · obtain ⟨e, haccepts, -⟩ := addScalarization_eq_ok_iff.mp hadded
    have hmade := haccepts.made
    exact addScalarization_mirror h hadded hmade ((weightedSum_mirror p turned weights).trans hmade)
      (combines_of_weightedSum hmade)
  · obtain ⟨e, haccepts, -⟩ := addScalarization_eq_ok_iff.mp hadded
    have hmade := haccepts.made
    exact addScalarization_mirror h hadded hmade
      ((Achievement.scalarizer_mirror p turned a).trans hmade) (combines_of_achievement hmade)

/-- The objective to be maximized is written as one to be minimized, and the other one the other way
round. The achievement function that is added has the same column. -/
theorem mixedProblem_directions :
    mixedProblem.draft.SeesAliases ["f", "g"] ∧
    ∃ q result mirrored,
      mixedProblem.addScalarization "worst" "s" (Achievement.mk mixedParameters 0.5).scalarizer =
        .ok q ∧
      (mixedProblem.mirror ["f", "g"]).addScalarization "worst" "s"
        ((Achievement.mk mixedParameters 0.5).mirror ["f", "g"]).scalarizer =
        .ok (q.mirror ["f", "g"]) ∧
      q.evaluate mixedBatch ⟨.perRow, .scalarizations⟩ = .ok result ∧
      (q.mirror ["f", "g"]).evaluate mixedBatch ⟨.perRow, .scalarizations⟩ = .ok mirrored ∧
      mirrored.table.find? "s" = result.table.find? "s" ∧
      mirrored.table.find? "g" = (result.table.find? "g").map fun values ↦
        values.map fun value ↦ -value := by
  have haliases : mixedProblem.draft.SeesAliases ["f", "g"] :=
    ⟨by decide +kernel, fun c hc ↦ absurd hc List.not_mem_nil,
      fun g hg ↦ absurd hg List.not_mem_nil⟩
  refine ⟨haliases, ?_⟩
  obtain ⟨-, -, -, -, hadd⟩ := mixedProblem.directions_make_no_difference ["f", "g"] haliases
  have hok : (mixedProblem.addScalarization "worst" "s"
      (Achievement.mk mixedParameters 0.5).scalarizer).toOption.any fun q ↦
        (q.evaluate mixedBatch ⟨.perRow, .scalarizations⟩).isOk := by
    decide +kernel
  rcases hadded : mixedProblem.addScalarization "worst" "s"
      (Achievement.mk mixedParameters 0.5).scalarizer with error | q
  · rw [hadded] at hok
    cases hok
  · rw [hadded, Except.toOption, Option.any_some] at hok
    obtain ⟨hadded', hevaluates⟩ := (hadd "worst" "s" q).2 _ hadded
    rcases hevaluates mixedBatch ⟨.perRow, .scalarizations⟩ with
      ⟨error, herror, -⟩ | ⟨result, mirrored, hresult, hmirrored, hsame⟩
    · rw [herror] at hok
      cases hok
    · exact ⟨q, result, mirrored, rfl, hadded', hresult, hmirrored, hsame.find? "s",
        hsame.find? "g"⟩

end Problem

end Tradeoff
