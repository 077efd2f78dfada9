import Tradeoff.Proofs.Decimal.Signs
import Tradeoff.Proofs.Evaluation.Causes
import Tradeoff.Proofs.Evaluation.Extension
import Tradeoff.Proofs.Evaluation.Pointwise

/-!
# What scalarizations compute

A weighted sum and an achievement function can be added to every problem under a new identifier,
provided that every objective has its parameter (`Problem.addScalarization_combines`). The column
that an evaluation has for the function holds, for each sample, the combination of the oriented
values that the same evaluation has for the objectives: the expression is plain, its symbols are the
aliases, and these stand for the columns of the objectives, negated where large values are better.
-/

namespace Tradeoff

/-! ### Parameters -/

section Parameters

variable {parameters : SortedMap Float} {words : String}
  {objectives : List Objective}

/-- With a parameter for each, all objectives are returned with theirs. -/
theorem withParameters_eq_ok {parameter : Objective → Float}
    (h : ∀ f ∈ objectives, parameters.find? f.symbol = some (parameter f)) :
    withParameters parameters words objectives =
      .ok (objectives.map fun f ↦ (f, parameter f)) := by
  induction objectives with
  | nil => rfl
  | cons f objectives ih =>
    obtain ⟨hf, hrest⟩ := List.forall_mem_cons.mp h
    rw [withParameters, hf, ih hrest]
    rfl

/-- The error is that of the first objective without a parameter. -/
theorem withParameters_eq_error {before after : List Objective} {f : Objective}
    (hbefore : ∀ g ∈ before, (parameters.find? g.symbol).isSome)
    (hf : parameters.find? f.symbol = none) :
    withParameters parameters words (before ++ f :: after) =
      .error (.missingParameter f.symbol words) := by
  induction before with
  | nil => rw [List.nil_append, withParameters, hf]
  | cons g before ih =>
    obtain ⟨hg, hrest⟩ := List.forall_mem_cons.mp hbefore
    obtain ⟨parameter, hparameter⟩ := Option.isSome_iff_exists.mp hg
    rw [List.cons_append, withParameters, hparameter, ih hrest]

/-- Objectives that are returned with their parameters all have one. -/
theorem exists_of_withParameters {entries : List (Objective × Float)}
    (h : withParameters parameters words objectives = .ok entries) :
    ∃ parameter : Objective → Float,
      ∀ f ∈ objectives, parameters.find? f.symbol = some (parameter f) := by
  have hall : ∀ f ∈ objectives, ∃ value, parameters.find? f.symbol = some value := by
    induction objectives generalizing entries with
    | nil => exact fun _ hf ↦ absurd hf List.not_mem_nil
    | cons f objectives ih =>
      rw [withParameters] at h
      cases hf : parameters.find? f.symbol with
      | none =>
        rw [hf] at h
        cases h
      | some value =>
        rcases hrest : withParameters parameters words objectives with error | rest
        · rw [hf, hrest] at h
          cases h
        · exact List.forall_mem_cons.mpr ⟨⟨value, hf⟩, ih hrest⟩
  refine ⟨fun f ↦ (parameters.find? f.symbol).getD 0, fun f hf ↦ ?_⟩
  obtain ⟨value, hvalue⟩ := hall f hf
  simp only [hvalue, Option.getD_some]

/-- Parameters of anything else make no difference. -/
theorem withParameters_congr {parameters' : SortedMap Float}
    (h : ∀ f ∈ objectives, parameters.find? f.symbol = parameters'.find? f.symbol) :
    withParameters parameters words objectives =
      withParameters parameters' words objectives := by
  induction objectives with
  | nil => rfl
  | cons f objectives ih =>
    obtain ⟨hf, hrest⟩ := List.forall_mem_cons.mp h
    rw [withParameters, withParameters, hf, ih hrest]

end Parameters

/-! ### Expressions of scalarizations -/

namespace Objective

/-- The weight that makes up for the range of the objective. -/
inductive HasWeight (f : Objective) : Float → Prop where
  /-- One over the distance between the best and the worst value, if that is positive. -/
  | range {ideal nadir : Float} : f.ideal? = some ideal → f.nadir? = some nadir →
      0 < (nadir - ideal).abs → HasWeight f (1 / (nadir - ideal).abs)
  /-- One, if there is no such distance. -/
  | unknown : (∀ ideal nadir, f.ideal? = some ideal → f.nadir? = some nadir →
      ¬ 0 < (nadir - ideal).abs) → HasWeight f 1

/-- There is no other such weight. -/
theorem HasWeight.eq_weight {f : Objective} {w : Float} (h : f.HasWeight w) : w = f.weight := by
  unfold weight
  cases h with
  | range hideal hnadir hpos =>
    rw [hideal, hnadir]
    exact (if_pos hpos).symm
  | unknown hnone =>
    split
    · next ideal nadir hideal hnadir => rw [if_neg (hnone ideal nadir hideal hnadir)]
    · rfl

/-- The weight that is computed is such a weight. -/
theorem hasWeight_weight (f : Objective) : f.HasWeight f.weight := by
  unfold weight
  split
  · next ideal nadir hideal hnadir =>
    split
    · next hpos => exact .range hideal hnadir hpos
    · next hpos =>
      refine .unknown fun ideal' nadir' hideal' hnadir' ↦ ?_
      rw [hideal, Option.some.injEq] at hideal'
      rw [hnadir, Option.some.injEq] at hnadir'
      rwa [← hideal', ← hnadir']
  · next hnone =>
    exact .unknown fun ideal nadir hideal hnadir ↦ (hnone ideal nadir hideal hnadir).elim

end Objective

/-- The expression is plain and has no other symbols than aliases of the objectives. -/
structure Expr.Combines (objectives : List Objective) (e : Expr) : Prop where
  /-- It is plain. -/
  plain : e.IsPlain
  /-- Its symbols are aliases. -/
  aliases : ∀ symbol ∈ e.mentions, ∃ f ∈ objectives, symbol = minAlias f.symbol

namespace Expr

variable {objectives : List Objective}

theorem combines_number (value : Float) : (number value).Combines objectives where
  plain := .number value
  aliases := nofun

/-- The alias of an objective is one of those that may be mentioned. -/
theorem combines_aliasExpr {f : Objective} (hf : f ∈ objectives) :
    f.aliasExpr.Combines objectives where
  plain := .symbol _
  aliases _ hsymbol := ⟨f, hf, List.mem_singleton.mp hsymbol⟩

/-- Two expressions are combined by any operator that takes two numbers. -/
theorem Combines.pair {op : Operator} {a b : Expr} (ha : a.Combines objectives)
    (hb : b.Combines objectives) (hop : op ≠ .component) (haccepts : op.arity.accepts 2) :
    (operation op [a, b]).Combines objectives where
  plain := isPlain_pair hop haccepts ha.plain hb.plain
  aliases symbol hsymbol := by
    simp only [mentions, mentionsList, List.append_nil, List.mem_append] at hsymbol
    exact hsymbol.elim (ha.aliases symbol) (hb.aliases symbol)

theorem Combines.add {a b : Expr} (ha : a.Combines objectives) (hb : b.Combines objectives) :
    (a.add b).Combines objectives := ha.pair hb (by decide) rfl

theorem Combines.multiply {a b : Expr} (ha : a.Combines objectives) (hb : b.Combines objectives) :
    (a.multiply b).Combines objectives := ha.pair hb (by decide) rfl

/-- A sum of some terms is an operation on them or the only term. -/
theorem Combines.total {terms : List Expr} (hne : terms ≠ [])
    (h : ∀ term ∈ terms, term.Combines objectives) : (total terms).Combines objectives where
  plain := .total hne fun term hterm ↦ (h term hterm).plain
  aliases symbol hsymbol := by
    obtain ⟨term, hterm, hmention⟩ := mem_mentions_total.mp hsymbol
    exact (h term hterm).aliases symbol hmention

/-- A maximum is taken of at least one term. -/
theorem Combines.max {terms : List Expr} (hne : terms ≠ [])
    (h : ∀ term ∈ terms, term.Combines objectives) :
    (operation .max terms).Combines objectives where
  plain := .operation (by decide) (decide_eq_true (List.length_pos_iff.mpr hne))
    fun term hterm ↦ (h term hterm).plain
  aliases symbol hsymbol := by
    obtain ⟨term, hterm, hmention⟩ := mem_mentionsList.mp hsymbol
    exact (h term hterm).aliases symbol hmention

theorem combines_weighted {f : Objective} (hf : f ∈ objectives) (w : Float) :
    (f.weighted w).Combines objectives :=
  (combines_number w).multiply (combines_aliasExpr hf)

theorem combines_deviation {f : Objective} (hf : f ∈ objectives) (z : Float) :
    (f.deviation z).Combines objectives :=
  (combines_number f.weight).multiply ((combines_aliasExpr hf).add (combines_number _))

variable (assign : String → Float)

/-- The value of a weighted objective is the product of the weight and its oriented value. -/
theorem valueAt_weighted (f : Objective) (w : Float) :
    (f.weighted w).valueAt assign = w * assign (minAlias f.symbol) := by
  rw [Objective.weighted, valueAt_multiply, valueAt_number, Objective.aliasExpr, valueAt_symbol]

/-- The value of a deviation is the weighted difference of oriented values. -/
theorem valueAt_deviation (f : Objective) (z : Float) :
    (f.deviation z).valueAt assign = f.weight * (assign (minAlias f.symbol) + -f.orient z) := by
  rw [Objective.deviation, valueAt_multiply, valueAt_add, valueAt_number, valueAt_number,
    Objective.aliasExpr, valueAt_symbol]

end Expr

section Make

variable {p : Problem}

/-- The expression that is made if all objectives have a weight. -/
theorem weightedSum_eq {weights : SortedMap Float} {w : Objective → Float}
    (h : ∀ f ∈ p.draft.objectives, weights.find? f.symbol = some (w f)) :
    weightedSum weights p = .ok (.total (p.draft.objectives.map fun f ↦ f.weighted (w f))) := by
  rw [weightedSum, withParameters_eq_ok h]
  simp only [List.map_map]
  rfl

/-- The expression that is made if all objectives have a reference value: the sum is left out if its
factor is zero. -/
theorem achievement_eq {a : Achievement} {z : Objective → Float}
    (h : ∀ f ∈ p.draft.objectives, a.reference.find? f.symbol = some (z f)) :
    a.scalarizer p = .ok
      (if a.rho == 0 then .operation .max (p.draft.objectives.map fun f ↦ f.deviation (z f))
      else .add (.operation .max (p.draft.objectives.map fun f ↦ f.deviation (z f)))
        (.multiply (.number a.rho)
          (.total (p.draft.objectives.map fun f ↦ f.weighted f.weight)))) := by
  rw [Achievement.scalarizer, withParameters_eq_ok h]
  simp only [List.map_map]
  split <;> rfl

end Make

/-! ### The columns of objectives -/

/-- The column that a symbol stands for, if it stands for one. -/
def Environment.columnOf (env : Environment) (symbol : String) : Column :=
  match env.find? symbol with
  | some (.scalar column) => column
  | _ => .constant notANumber

/-- What is bound to a scalar is the column of the symbol. -/
theorem Environment.columnOf_of_find? {env : Environment} {symbol : String} {column : Column}
    (h : env.find? symbol = some (.scalar column)) : env.columnOf symbol = column := by
  rw [columnOf, h]

/-- The negated values are the values of the negated column, also beyond the last sample. -/
theorem Column.get_map_neg (column : Column) (sample : Nat) :
    (column.map fun value ↦ -value).get sample = -column.get sample := by
  cases column with
  | constant value => rfl
  | samples values =>
    show ((values.map fun value ↦ -value)[sample]?).getD notANumber = -values[sample]?.getD _
    rw [Array.getElem?_map]
    cases values[sample]? with
    | none => exact neg_notANumber.symm
    | some value => rfl

/-- The oriented value for a sample is the value, negated if it is to be maximized. -/
theorem Objective.get_map_orient (f : Objective) (column : Column) (sample : Nat) :
    (column.map f.orient).get sample =
      if f.maximize then -column.get sample else column.get sample := by
  rw [Problem.map_orient]
  split
  · exact column.get_map_neg sample
  · rfl

namespace Problem

variable {p q : Problem} {batch : Table} {stages : List Stage} {progress : Progress}

section Solved

variable {policy : Policy}

/-- An objective that has been evaluated is bound to a column, and its alias to the oriented
column. -/
theorem Solved.exists_oriented (h : p.Solved batch policy stages progress)
    (hstages : .objectives ∈ stages) {f : Objective} (hf : f ∈ p.draft.objectives) :
    ∃ column, progress.env.find? f.symbol = some (.scalar column) ∧
      progress.env.find? (minAlias f.symbol) = some (.scalar (column.map f.orient)) := by
  have hmem : .objective f ∈ p.draft.fieldsOf stages :=
    Draft.mem_fieldsOf.mpr ⟨.objectives, hstages, List.mem_map_of_mem hf⟩
  rcases h.contributed_cases hmem with ⟨e, column, failures, -, -, hcontributed⟩ | ⟨c, hc, -⟩
  · exact ⟨column, h.find?_symbol hmem hcontributed, h.find?_minAlias hmem hcontributed⟩
  · cases hc

/-- After the objectives, a combination of them has its values. -/
theorem Solved.hasValues (h : p.Solved batch policy stages progress)
    (hstages : .objectives ∈ stages) {e : Expr} (he : e.Combines p.draft.objectives)
    (field : Option String) :
    e.HasValues ⟨progress.env, field⟩ fun sample ↦
      e.valueAt fun symbol ↦ (progress.env.columnOf symbol).get sample := by
  refine he.plain.hasValues fun symbol hsymbol ↦ ?_
  obtain ⟨f, hf, rfl⟩ := he.aliases symbol hsymbol
  obtain ⟨column, -, halias⟩ := h.exists_oriented hstages hf
  rw [Environment.columnOf_of_find? halias]
  exact ⟨halias, h.fits.of_find? halias⟩

end Solved

/-- A problem with one more combination of objectives has a result where the problem has one. -/
theorem exists_evaluate_addScalarization {f : DerivedFunction}
    (hq : q.draft = p.draft.addScalarization f) (hf : f.expr.Combines p.draft.objectives)
    {result : Evaluation} (h : p.evaluate batch ⟨.perRow, .scalarizations⟩ = .ok result) :
    ∃ extended, q.evaluate batch ⟨.perRow, .scalarizations⟩ = .ok extended := by
  obtain ⟨start, last, hstart, hlast, -⟩ := evaluate_eq_ok_iff.mp h
  obtain ⟨progress, hbefore, hstage⟩ := runStages_upTo_eq_ok_iff.mp hlast
  obtain ⟨cs, hcs, -⟩ := runStage_eq_ok_iff.mp hstage
  have hstart' : q.start batch = .ok start := (start_addScalarization hq batch).trans hstart
  have hbefore' :
      (q.runStages .perRow start Stage.scalarizations.before).result = .ok progress := by
    rw [runStages_addScalarization hq (by decide)]
    exact hbefore
  have hsolved : p.Solved batch .perRow Stage.scalarizations.before progress :=
    ((solved_start hstart .perRow).upTo .constraints progress hbefore).1
  have hsolved' : q.Solved batch .perRow Stage.scalarizations.before progress :=
    ((solved_start hstart' .perRow).upTo .constraints progress hbefore').1
  obtain ⟨column, failures, hsettle, -⟩ :=
    (hsolved.hasValues (by decide) hf (some f.symbol)).exists_settle
  have hcontribute : (Field.scalarization f).contribute progress.env .perRow =
      .ok ⟨(Field.scalarization f).bindings column, failures⟩ := by
    rw [Field.contribute_of_expr? rfl, Field.symbol, hsettle]
    rfl
  -- The new function is evaluated after the others, and nothing else can go wrong.
  have hall : contributions progress.env .perRow (q.draft.stageFields .scalarizations) =
      .ok (cs ++ [⟨(Field.scalarization f).bindings column, failures⟩]) := by
    rw [hq, Draft.stageFields_addScalarization_last, contributions_append, hcs, contributions,
      hcontribute]
    rfl
  obtain ⟨table, hcompleted, -⟩ := hsolved'.exists_completed hall
  exact ⟨_, evaluate_eq_ok_iff.mpr ⟨start, _, hstart', runStages_upTo_eq_ok_iff.mpr
    ⟨progress, hbefore', runStage_eq_ok_iff.mpr ⟨_, hall, hcompleted⟩⟩, rfl⟩⟩

/-- The second problem is evaluated whenever the first is, up to the last stage and with failures
confined to their samples. For every sample, the column of the symbol has then a value that is right
for the oriented values of the objectives: they are the values under the aliases, and those of the
objectives themselves, negated for objectives to be maximized. -/
def Adds (p q : Problem) (symbol : String) (IsValue : (Objective → Float) → Float → Prop) : Prop :=
  ∀ batch,
    (∀ result, p.evaluate batch ⟨.perRow, .scalarizations⟩ = .ok result →
      ∃ extended, q.evaluate batch ⟨.perRow, .scalarizations⟩ = .ok extended) ∧
    ∀ extended, q.evaluate batch ⟨.perRow, .scalarizations⟩ = .ok extended →
      ∀ sample < batch.rows, ∃ oriented value,
        (∀ f ∈ p.draft.objectives, ∃ own, extended.table.cell? f.symbol sample = some own ∧
          oriented f = (if f.maximize then -own else own) ∧
          extended.table.cell? (minAlias f.symbol) sample = some (oriented f)) ∧
        extended.table.cell? symbol sample = some value ∧ IsValue oriented value

/-- So whenever the first problem is evaluated, the second one has a value that is right. -/
theorem Adds.exists_value {p q : Problem} {symbol : String}
    {IsValue : (Objective → Float) → Float → Prop} (h : p.Adds q symbol IsValue) {batch : Table}
    {result : Evaluation} (hresult : p.evaluate batch ⟨.perRow, .scalarizations⟩ = .ok result)
    {sample : Nat} (hsample : sample < batch.rows) :
    ∃ extended oriented value, q.evaluate batch ⟨.perRow, .scalarizations⟩ = .ok extended ∧
      (∀ f ∈ p.draft.objectives, ∃ own, extended.table.cell? f.symbol sample = some own ∧
        oriented f = if f.maximize then -own else own) ∧
      extended.table.cell? symbol sample = some value ∧ IsValue oriented value := by
  obtain ⟨extended, hextended⟩ := (h batch).1 result hresult
  obtain ⟨oriented, value, hcells, hcell, hvalue⟩ := (h batch).2 extended hextended sample hsample
  refine ⟨extended, oriented, value, hextended, fun f hf ↦ ?_, hcell, hvalue⟩
  obtain ⟨own, hown, horiented, -⟩ := hcells f hf
  exact ⟨own, hown, horiented⟩

/-- A combination of the objectives adds its values. -/
theorem adds_of_combines {name symbol : String} {e : Expr}
    {IsValue : (Objective → Float) → Float → Prop}
    (hq : q.draft = p.draft.addScalarization ⟨name, symbol, e⟩)
    (he : e.Combines p.draft.objectives)
    (hvalue : ∀ assign, IsValue (fun f ↦ assign (minAlias f.symbol)) (e.valueAt assign)) :
    p.Adds q symbol IsValue := by
  refine fun batch ↦ ⟨fun result hresult ↦ exists_evaluate_addScalarization hq he hresult,
    fun extended hextended sample hsample ↦ ?_⟩
  obtain ⟨last, rfl, hsolved, -⟩ := exists_solved hextended
  have hobjectives : q.draft.objectives = p.draft.objectives := by rw [hq, Draft.addScalarization]
  have hfield : .scalarization ⟨name, symbol, e⟩ ∈ q.draft.fieldsOf Stage.scalarizations.upTo := by
    refine Draft.mem_fieldsOf.mpr ⟨.scalarizations, by decide, ?_⟩
    rw [hq, Draft.stageFields_addScalarization_last]
    exact List.mem_append_right _ (List.mem_singleton_self _)
  obtain ⟨column, failures, hsettle, hcontributed⟩ := hsolved.exists_column hfield rfl
  have hvalues := hsolved.hasValues (by decide) (hobjectives ▸ he) (some symbol)
  obtain ⟨column', failures', hsettle', hget⟩ := hvalues.exists_settle
  cases hsettle'.symm.trans hsettle
  have hcell (f : Objective) (hf : f ∈ p.draft.objectives) :
      ∃ own, last.soFar.table.cell? f.symbol sample = some own ∧
        (last.env.columnOf (minAlias f.symbol)).get sample = (if f.maximize then -own else own) ∧
        last.soFar.table.cell? (minAlias f.symbol) sample =
          some ((last.env.columnOf (minAlias f.symbol)).get sample) := by
    obtain ⟨own, hown, halias⟩ := hsolved.exists_oriented (by decide) (hobjectives ▸ hf)
    rw [Environment.columnOf_of_find? halias]
    exact ⟨own.get sample, hsolved.cell?_of_find? hsample hown, f.get_map_orient own sample,
      hsolved.cell?_of_find? hsample halias⟩
  refine ⟨_, column.get sample, hcell,
    hsolved.cell?_of_find? hsample (hsolved.find?_symbol hfield hcontributed), ?_⟩
  rw [hget sample (hsolved.rows.symm ▸ hsample)]
  exact hvalue fun symbol ↦ (last.env.columnOf symbol).get sample

/-! ### Scalarizations -/

/-- A combination of the objectives can be added under a new identifier. -/
theorem exists_addScalarization {symbol : String} {make : Scalarizer} {e : Expr} (name : String)
    (hidentifier : isIdentifier symbol) (hnew : ¬ p.draft.Taken symbol) (hmade : make p = .ok e)
    (he : e.Combines p.draft.objectives) :
    ∃ q, p.addScalarization name symbol make = .ok q ∧
      q.draft = p.draft.addScalarization ⟨name, symbol, e⟩ := by
  have haccepts : p.Accepts symbol make e := by
    refine ⟨hnew, hmade, hidentifier, fun mention hmention ↦ ?_⟩
    obtain ⟨f, hf, rfl⟩ := he.aliases mention hmention
    exact Draft.mem_scope_iff.mpr (.oriented (by decide) hf)
  rcases p.addScalarization_cases name symbol make with
    ⟨e', q, haccepts', hadded, hdraft⟩ | ⟨error, hrefuses, -⟩
  · cases hmade.symm.trans haccepts'.made
    exact ⟨q, hadded, hdraft⟩
  · exact absurd hrefuses haccepts.not_refuses

/-- The terms of a sum over all objectives. There is always one. -/
theorem map_objectives_ne_nil (p : Problem) {α : Type} (term : Objective → α) :
    p.draft.objectives.map term ≠ [] := by
  rw [ne_eq, List.map_eq_nil_iff]
  exact p.isSound.objectives

/-- The weighted sum is made of aliases and numbers. -/
theorem combines_weightedSum (p : Problem) (w : Objective → Float) :
    (Expr.total (p.draft.objectives.map fun f ↦ f.weighted (w f))).Combines p.draft.objectives := by
  refine .total (p.map_objectives_ne_nil _) fun term hterm ↦ ?_
  obtain ⟨f, hf, rfl⟩ := List.mem_map.mp hterm
  exact Expr.combines_weighted hf (w f)

theorem combines_deviations (p : Problem) (z : Objective → Float) :
    (Expr.operation .max (p.draft.objectives.map fun f ↦ f.deviation (z f))).Combines
      p.draft.objectives := by
  refine .max (p.map_objectives_ne_nil _) fun term hterm ↦ ?_
  obtain ⟨f, hf, rfl⟩ := List.mem_map.mp hterm
  exact Expr.combines_deviation hf (z f)

theorem combines_achievement (p : Problem) (z : Objective → Float) (rho : Float) :
    (if rho == 0 then .operation .max (p.draft.objectives.map fun f ↦ f.deviation (z f))
      else .add (.operation .max (p.draft.objectives.map fun f ↦ f.deviation (z f)))
        (.multiply (.number rho)
          (.total (p.draft.objectives.map fun f ↦ f.weighted f.weight))) : Expr).Combines
      p.draft.objectives := by
  have hworst := p.combines_deviations z
  split
  · exact hworst
  · exact hworst.add ((Expr.combines_number rho).multiply (p.combines_weightedSum Objective.weight))

/-- Whatever the weights are, what is made combines the objectives. -/
theorem combines_of_weightedSum {weights : SortedMap Float} {e : Expr}
    (h : weightedSum weights p = .ok e) : e.Combines p.draft.objectives := by
  rcases hentries : withParameters weights "weight" p.draft.objectives with error | entries
  · rw [weightedSum, hentries] at h
    cases h
  · obtain ⟨w, hw⟩ := exists_of_withParameters hentries
    cases (weightedSum_eq hw).symm.trans h
    exact p.combines_weightedSum w

/-- Whatever the reference point is, what is made combines the objectives. -/
theorem combines_of_achievement {a : Achievement} {e : Expr} (h : a.scalarizer p = .ok e) :
    e.Combines p.draft.objectives := by
  rcases hentries : withParameters a.reference "reference point value" p.draft.objectives with
    error | entries
  · rw [Achievement.scalarizer, hentries] at h
    cases h
  · obtain ⟨z, hz⟩ := exists_of_withParameters hentries
    cases (achievement_eq hz).symm.trans h
    exact p.combines_achievement z a.rho

/-- The value of the weighted sum, added up from left to right. -/
theorem valueAt_weightedSum (p : Problem) (w : Objective → Float) (assign : String → Float) :
    (Expr.total (p.draft.objectives.map fun f ↦ f.weighted (w f))).valueAt assign =
      leftSum (p.draft.objectives.map fun f ↦ w f * assign (minAlias f.symbol)) := by
  rw [Expr.valueAt_total assign (p.map_objectives_ne_nil _), List.map_map]
  congr 1
  exact List.map_congr_left fun f _ ↦ Expr.valueAt_weighted assign f (w f)

/-- The greatest deviation is the maximum of the weighted differences, if these are numbers. -/
theorem valueAt_deviations (p : Problem) (z : Objective → Float) (assign : String → Float)
    (h : ∀ f ∈ p.draft.objectives,
      (f.weight * (assign (minAlias f.symbol) + -f.orient (z f))).isNaN = false) :
    IsMaximum
      (p.draft.objectives.map fun f ↦ f.weight * (assign (minAlias f.symbol) + -f.orient (z f)))
      ((Expr.operation .max
        (p.draft.objectives.map fun f ↦ f.deviation (z f))).valueAt assign) := by
  have hvalues : p.draft.objectives.map (Expr.valueAt assign ∘ fun f ↦ f.deviation (z f)) =
      p.draft.objectives.map fun f ↦
        f.weight * (assign (minAlias f.symbol) + -f.orient (z f)) :=
    List.map_congr_left fun f _ ↦ Expr.valueAt_deviation assign f (z f)
  rw [Expr.valueAt_operation, List.map_map, hvalues]
  exact isMaximum_valueOf_apply (p.map_objectives_ne_nil _) (List.forall_mem_map.mpr h)

/-- The number is the value of the achievement function for these oriented values and weights of the
objectives: the greatest weighted difference from the oriented reference value and, unless its
factor is zero, the weighted sum times the factor. Nothing is said if a weighted difference is not a
number. -/
def IsAchievement (p : Problem) (z w : Objective → Float) (rho : Float)
    (oriented : Objective → Float) (value : Float) : Prop :=
  (∀ f ∈ p.draft.objectives, (w f * (oriented f + -f.orient (z f))).isNaN = false) →
    ∃ worst, IsMaximum (p.draft.objectives.map fun f ↦ w f * (oriented f + -f.orient (z f))) worst ∧
      value = if rho == 0 then worst
        else worst + rho * leftSum (p.draft.objectives.map fun f ↦ w f * oriented f)

/-- Weights for all objectives can be added up under a new identifier, and the values are the sums
of the weighted oriented values. -/
theorem exists_adds_weightedSum {symbol : String} (name : String)
    (hidentifier : isIdentifier symbol) (hnew : ¬ p.draft.Taken symbol) {weights : SortedMap Float}
    {w : Objective → Float}
    (hw : ∀ f ∈ p.draft.objectives, weights.find? f.symbol = some (w f)) :
    ∃ q, p.addScalarization name symbol (weightedSum weights) = .ok q ∧
      p.Adds q symbol fun oriented value ↦
        value = leftSum (p.draft.objectives.map fun f ↦ w f * oriented f) := by
  have hcombines := p.combines_weightedSum w
  obtain ⟨q, hadded, hq⟩ :=
    exists_addScalarization name hidentifier hnew (weightedSum_eq hw) hcombines
  exact ⟨q, hadded, adds_of_combines hq hcombines fun assign ↦ p.valueAt_weightedSum w assign⟩

/-- With a reference value for every objective, the achievement function can be added under a new
identifier, and its values are right. -/
theorem exists_adds_achievement {symbol : String} (name : String)
    (hidentifier : isIdentifier symbol) (hnew : ¬ p.draft.Taken symbol) {a : Achievement}
    {z : Objective → Float}
    (hz : ∀ f ∈ p.draft.objectives, a.reference.find? f.symbol = some (z f)) :
    ∃ q, p.addScalarization name symbol a.scalarizer = .ok q ∧
      p.Adds q symbol (p.IsAchievement z Objective.weight a.rho) := by
  have hmade := achievement_eq hz
  have hcombines := p.combines_achievement z a.rho
  obtain ⟨q, hadded, hq⟩ := exists_addScalarization name hidentifier hnew hmade hcombines
  refine ⟨q, hadded, adds_of_combines hq hcombines fun assign hnumbers ↦
    ⟨_, p.valueAt_deviations z assign hnumbers, ?_⟩⟩
  split
  · rfl
  · rw [Expr.valueAt_add, Expr.valueAt_multiply, Expr.valueAt_number, p.valueAt_weightedSum]

/-- An objective without a parameter is reported, the first one if there are several. -/
theorem addScalarization_of_missing (name : String) {symbol : String} {parameters : SortedMap Float}
    {words : String} {before after : List Objective} {f : Objective} {make : Scalarizer}
    (hnew : ¬ p.draft.Taken symbol)
    (hobjectives : p.draft.objectives = before ++ f :: after)
    (hbefore : ∀ g ∈ before, (parameters.find? g.symbol).isSome)
    (hf : parameters.find? f.symbol = none)
    (hmake : ∀ error, withParameters parameters words p.draft.objectives = .error error →
      make p = .error error) :
    p.addScalarization name symbol make = .error (.missingParameter f.symbol words) := by
  refine addScalarization_eq_error_iff.mpr (.notMade hnew (hmake _ ?_))
  rw [hobjectives, withParameters_eq_error hbefore hf]

/-- Only the expression that is made for this problem matters. -/
theorem addScalarization_congr (name symbol : String) {make make' : Scalarizer}
    (h : make p = make' p) :
    p.addScalarization name symbol make = p.addScalarization name symbol make' := by
  rw [addScalarization, addScalarization, h]

/-- To every problem, weighted sums and achievement functions can be added under new identifiers if
every objective has its parameter. Up to the last stage, and with failures confined to their
samples, the new problem is evaluated whenever the old one is. Its new column has for every sample
the weighted sum, from left to right, of the oriented values of the objectives, or the value of the
achievement function for the weights that make up for their ranges. If a parameter is missing, the
error names the first objective that has none, and parameters of anything else make no
difference. -/
theorem addScalarization_combines (p : Problem) (name symbol : String)
    (hidentifier : isIdentifier symbol) (hnew : p.contains symbol = false) :
    (∀ (weights : SortedMap Float) (w : Objective → Float),
      (∀ f ∈ p.draft.objectives, weights.find? f.symbol = some (w f)) →
      ∃ q, p.addScalarization name symbol (weightedSum weights) = .ok q ∧
        p.Adds q symbol fun oriented value ↦
          value = leftSum (p.draft.objectives.map fun f ↦ w f * oriented f)) ∧
    (∃ w : Objective → Float, (∀ f : Objective, f.HasWeight (w f)) ∧
      ∀ (a : Achievement) (z : Objective → Float),
        (∀ f ∈ p.draft.objectives, a.reference.find? f.symbol = some (z f)) →
        ∃ q, p.addScalarization name symbol a.scalarizer = .ok q ∧
          p.Adds q symbol (p.IsAchievement z w a.rho)) ∧
    (∀ (parameters : SortedMap Float) before f after,
      p.draft.objectives = before ++ f :: after →
      (∀ g ∈ before, (parameters.find? g.symbol).isSome) → parameters.find? f.symbol = none →
      p.addScalarization name symbol (weightedSum parameters) =
        .error (.missingParameter f.symbol "weight") ∧
      ∀ rho, p.addScalarization name symbol (Achievement.mk parameters rho).scalarizer =
        .error (.missingParameter f.symbol "reference point value")) ∧
    ∀ parameters parameters' : SortedMap Float,
      (∀ f ∈ p.draft.objectives, parameters.find? f.symbol = parameters'.find? f.symbol) →
      p.addScalarization name symbol (weightedSum parameters) =
        p.addScalarization name symbol (weightedSum parameters') ∧
      ∀ rho, p.addScalarization name symbol (Achievement.mk parameters rho).scalarizer =
        p.addScalarization name symbol (Achievement.mk parameters' rho).scalarizer := by
  have hfree : ¬ p.draft.Taken symbol := by
    rw [← contains_iff_taken, hnew]
    exact Bool.false_ne_true
  refine ⟨fun weights w hw ↦ exists_adds_weightedSum name hidentifier hfree hw,
    ⟨Objective.weight, Objective.hasWeight_weight, fun a z hz ↦
      exists_adds_achievement name hidentifier hfree hz⟩,
    fun parameters before f after hobjectives hbefore hf ↦ ⟨?_, fun rho ↦ ?_⟩,
    fun parameters parameters' hsame ↦ ⟨?_, fun rho ↦ ?_⟩⟩
  · refine addScalarization_of_missing name hfree hobjectives hbefore hf fun error herror ↦ ?_
    rw [weightedSum, herror]
  · refine addScalarization_of_missing name hfree hobjectives hbefore hf fun error herror ↦ ?_
    rw [Achievement.scalarizer, herror]
  · refine addScalarization_congr name symbol ?_
    rw [weightedSum, weightedSum, withParameters_congr hsame]
  · refine addScalarization_congr name symbol ?_
    rw [Achievement.scalarizer, Achievement.scalarizer, withParameters_congr hsame]

/-- A draft with an objective to be minimized, whose range is known, and one to be maximized. -/
def mixedDraft : Draft :=
  { Draft.empty "mixed" with
    decisions := [⟨"x", "x", .scalar, none, none, none⟩]
    objectives := [⟨"f", "f", some (.symbol "x"), false, some 0, some 4⟩,
      ⟨"g", "g", some (.multiply (.symbol "x") (.symbol "x")), true, none, none⟩] }

/-- The problem of the draft. -/
def mixedProblem : Problem := ⟨mixedDraft, by decide +kernel⟩

/-- Three samples for the variable. -/
def mixedBatch : Table := ⟨⟨[("x", #[1, 2, -3])], by decide⟩, by simp [rowCount]⟩

/-- A parameter for each of the two objectives. -/
def mixedParameters : SortedMap Float := ⟨[("f", 1), ("g", 2)], by decide⟩

/-- The values of the objectives in the second sample. -/
theorem mixedProblem_values {q : Problem} {extended : Evaluation}
    (hadded : mixedProblem.addScalarization "total" "s"
      (Achievement.mk mixedParameters 0.5).scalarizer = .ok q)
    (hextended : q.evaluate mixedBatch ⟨.perRow, .scalarizations⟩ = .ok extended) :
    ∀ f ∈ mixedProblem.draft.objectives,
      extended.table.cell? f.symbol 1 = some (if f.maximize then 4 else 2) := by
  have h : ∀ f ∈ mixedProblem.draft.objectives,
      ((mixedProblem.addScalarization "total" "s"
          (Achievement.mk mixedParameters 0.5).scalarizer).toOption.bind fun q ↦
        (q.evaluate mixedBatch ⟨.perRow, .scalarizations⟩).toOption.bind fun extended ↦
          extended.table.cell? f.symbol 1) = some (if f.maximize then 4 else 2) := by
    decide +kernel
  intro f hf
  simpa only [hadded, hextended, Except.toOption, Option.bind_some] using h f hf

/-- The achievement function for these values: the greater one of `0.25 * (2 - 1)` and
`1 * (-4 + 2)`, plus half of `0.25 * 2 - 4`. -/
theorem mixedProblem_isAchievement {oriented : Objective → Float} {value : Float}
    (horiented : ∀ f ∈ mixedProblem.draft.objectives, oriented f = if f.maximize then -4 else 2)
    (h : mixedProblem.IsAchievement (fun f ↦ if f.maximize then 2 else 1) Objective.weight 0.5
      oriented value) :
    value = -1.5 := by
  have hterms : (mixedProblem.draft.objectives.map fun f ↦
      f.weight * (oriented f + -f.orient (if f.maximize then 2 else 1))) = [0.25, -2] := by
    rw [List.map_congr_left fun f hf ↦ by rw [horiented f hf]]
    decide +kernel
  have hsum : (mixedProblem.draft.objectives.map fun f ↦ f.weight * oriented f) = [0.5, -4] := by
    rw [List.map_congr_left fun f hf ↦ by rw [horiented f hf]]
    decide +kernel
  have hnumbers : ∀ term ∈ ([0.25, -2] : List Float), term.isNaN = false := by decide +kernel
  have hgreatest : ∀ term ∈ ([0.25, -2] : List Float), (0.25 : Float) ≤ term → term = 0.25 := by
    decide +kernel
  obtain ⟨worst, ⟨hmem, hle⟩, hworst⟩ := h fun f hf ↦
    hnumbers _ (hterms ▸ List.mem_map_of_mem hf)
  rw [hterms] at hmem hle
  rw [hworst, hsum, hgreatest worst hmem (hle _ List.mem_cons_self)]
  decide +kernel

/-- One of the objectives is to be maximized, so that its value is subtracted in the sum. The range
of the other one makes its weight a quarter in the achievement function. A weight for the other one
alone is not enough. -/
theorem mixedProblem_addScalarization :
    (∃ q extended, mixedProblem.addScalarization "total" "s" (weightedSum mixedParameters) = .ok q ∧
      q.evaluate mixedBatch ⟨.perRow, .scalarizations⟩ = .ok extended ∧
      ∃ own own', extended.table.cell? "f" 1 = some own ∧ extended.table.cell? "g" 1 = some own' ∧
        extended.table.cell? "s" 1 = some (1 * own + 2 * -own')) ∧
    (∃ q extended, mixedProblem.addScalarization "total" "s"
        (Achievement.mk mixedParameters 0.5).scalarizer = .ok q ∧
      q.evaluate mixedBatch ⟨.perRow, .scalarizations⟩ = .ok extended ∧
      extended.table.cell? "s" 1 = some (-1.5)) ∧
    mixedProblem.addScalarization "total" "s" (weightedSum doubleWeight) =
      .error (.missingParameter "g" "weight") := by
  obtain ⟨hsums, ⟨w, hweights, hachievements⟩, hmissing, -⟩ :=
    mixedProblem.addScalarization_combines "total" "s" (by decide) (by decide +kernel)
  have hok : (mixedProblem.evaluate mixedBatch ⟨.perRow, .scalarizations⟩).isOk := by
    decide +kernel
  rcases hresult : mixedProblem.evaluate mixedBatch ⟨.perRow, .scalarizations⟩ with error | result
  · rw [hresult] at hok
    cases hok
  refine ⟨?_, ?_, ?_⟩
  · obtain ⟨q, hadded, hadds⟩ := hsums mixedParameters
      (fun f ↦ if f.maximize then 2 else 1) (by decide +kernel)
    obtain ⟨extended, oriented, value, hextended, hcells, hcell, hvalue⟩ :=
      hadds.exists_value hresult (show 1 < mixedBatch.rows by decide)
    obtain ⟨own, hown, horiented⟩ := hcells _ List.mem_cons_self
    obtain ⟨own', hown', horiented'⟩ :=
      hcells _ (List.mem_cons_of_mem _ (List.mem_singleton_self _))
    refine ⟨q, extended, hadded, hextended, own, own', hown, hown', ?_⟩
    rw [hcell, hvalue]
    show some (1 * oriented _ + 2 * oriented _) = _
    rw [horiented, horiented']
    rfl
  · obtain rfl : w = Objective.weight := funext fun f ↦ (hweights f).eq_weight
    obtain ⟨q, hadded, hadds⟩ := hachievements ⟨mixedParameters, 0.5⟩
      (fun f ↦ if f.maximize then 2 else 1) (by decide +kernel)
    obtain ⟨extended, oriented, value, hextended, hcells, hcell, hvalue⟩ :=
      hadds.exists_value hresult (show 1 < mixedBatch.rows by decide)
    have hvalues := mixedProblem_values hadded hextended
    have horiented : ∀ f ∈ mixedProblem.draft.objectives,
        oriented f = if f.maximize then -4 else 2 := by
      intro f hf
      obtain ⟨own, hown, heq⟩ := hcells f hf
      rw [heq, ← Option.some.inj ((hvalues f hf).symm.trans hown)]
      split <;> rfl
    refine ⟨q, extended, hadded, hextended, ?_⟩
    rw [hcell, mixedProblem_isAchievement horiented hvalue]
  · exact (hmissing doubleWeight [_] _ [] rfl (by decide +kernel) (by decide +kernel)).1

end Problem

end Tradeoff
