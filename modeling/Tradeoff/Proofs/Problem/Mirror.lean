import Tradeoff.Proofs.Decimal.Signs
import Tradeoff.Proofs.Problem.Scalarization

/-!
# The other direction

An objective to be maximized may as well be written as one to be minimized, if its expression and
its best and worst values are negated (`Objective.mirror`). A draft in which some objectives are
written so is a problem if the draft is (`Draft.Sound.mirror`): the same symbols are claimed, and
expressions mention what they mentioned.

Scalarizations are made of the aliases, and do not depend on how the directions are written
(`weightedSum_mirror`, `Achievement.scalarizer_mirror`). Three signs have to agree for this: that of
an oriented reference value, that of its difference from the alias, and that of the range of an
objective, of which only the magnitude counts (`Objective.weight_mirror`).
-/

namespace Tradeoff

/-! ### Entries -/

section Entries

variable {α : Type} (turned : List String) (negate : α → α)

/-- The entry, negated if its symbol is one of these. -/
def negateEntry (entry : String × α) : String × α :=
  (entry.1, if entry.1 ∈ turned then negate entry.2 else entry.2)

/-- Values are negated before or after they are looked up. -/
theorem lookup_negateEntry (entries : List (String × α)) (symbol : String) :
    (entries.map (negateEntry turned negate)).lookup symbol =
      (entries.lookup symbol).map fun value ↦ if symbol ∈ turned then negate value else value :=
  lookup_map (fun symbol value ↦ if symbol ∈ turned then negate value else value) entries symbol

variable {turned negate}

/-- Entries of other symbols stay as they are. -/
theorem map_negateEntry_of_not_mem {entries : List (String × α)}
    (h : ∀ entry ∈ entries, entry.1 ∉ turned) :
    entries.map (negateEntry turned negate) = entries := by
  conv_rhs => rw [← List.map_id entries]
  exact List.map_congr_left fun entry hentry ↦ congrArg (Prod.mk entry.1) (if_neg (h entry hentry))

end Entries

/-! ### Objectives -/

namespace Objective

/-- The objective with its direction written the other way: everything that has a sign gets the
other one. -/
def mirror (f : Objective) : Objective :=
  { f with
    expr? := f.expr?.map Expr.negate
    maximize := !f.maximize
    ideal? := f.ideal?.map fun value ↦ -value
    nadir? := f.nadir?.map fun value ↦ -value }

/-- The objective, mirrored if its symbol is one of these. -/
def mirrorIn (turned : List String) (f : Objective) : Objective :=
  if f.symbol ∈ turned then f.mirror else f

variable (turned : List String) (f : Objective)

theorem symbol_mirrorIn : (f.mirrorIn turned).symbol = f.symbol := by
  unfold mirrorIn
  split <;> rfl

/-- Negated values are oriented as the values were. -/
theorem orient_mirror (value : Float) : f.mirror.orient (-value) = f.orient value := by
  unfold orient mirror
  cases f.maximize with
  | true => rfl
  | false => exact neg_neg_float value

/-- The range has the same magnitude. -/
theorem weight_mirror : f.mirror.weight = f.weight := by
  unfold weight mirror
  cases f.ideal? with
  | none => rfl
  | some ideal =>
    cases f.nadir? with
    | none => rfl
    | some nadir =>
      show (if 0 < (-nadir - -ideal).abs then 1 / (-nadir - -ideal).abs else 1) = _
      rw [abs_neg_sub_neg]

/-- The range has the same magnitude, so the weight stays. -/
theorem weight_mirrorIn : (f.mirrorIn turned).weight = f.weight := by
  unfold mirrorIn
  split
  · exact f.weight_mirror
  · rfl

theorem weighted_mirrorIn (w : Float) : (f.mirrorIn turned).weighted w = f.weighted w := by
  rw [weighted, weighted, aliasExpr, aliasExpr, symbol_mirrorIn]

/-- The reference value of a mirrored objective has to be negated, as it is given in the direction
of the objective. -/
theorem deviation_mirrorIn (reference : Float) :
    (f.mirrorIn turned).deviation (if f.symbol ∈ turned then -reference else reference) =
      f.deviation reference := by
  rw [deviation, deviation, weight_mirrorIn, aliasExpr, aliasExpr, symbol_mirrorIn]
  unfold mirrorIn
  split
  · rw [orient_mirror]
  · rfl

end Objective

/-! ### Drafts -/

namespace Draft

/-- The draft with some of its objectives mirrored. -/
def mirror (d : Draft) (turned : List String) : Draft :=
  { d with objectives := d.objectives.map (·.mirrorIn turned) }

end Draft

/-- The field, mirrored if it is an objective with one of these symbols. -/
def Field.mirrorIn (turned : List String) : Field → Field
  | objective f => objective (f.mirrorIn turned)
  | field => field

/-- The field claims the symbols that it claimed. -/
theorem Field.claims_mirrorIn (turned : List String) (field : Field) :
    (field.mirrorIn turned).claims = field.claims := by
  cases field with
  | objective f =>
    show [_, minAlias _] = [_, minAlias _]
    rw [Objective.symbol_mirrorIn]
  | _ => rfl

/-- A mirrored objective mentions what it mentioned. -/
theorem Field.mentions_mirrorIn {turned : List String} {field : Field} {e : Expr}
    (he : (field.mirrorIn turned).expr? = some e) :
    ∃ e', field.expr? = some e' ∧ e.mentions = e'.mentions := by
  cases field with
  | objective f =>
    change (f.mirrorIn turned).expr? = some e at he
    unfold Objective.mirrorIn at he
    split at he
    · obtain ⟨e', he', rfl⟩ := Option.map_eq_some_iff.mp he
      exact ⟨e', he', by simp [Expr.negate, Expr.mentions, Expr.mentionsList]⟩
    · exact ⟨e, he, rfl⟩
  | _ => exact ⟨e, he, rfl⟩

namespace Draft

variable (d : Draft) (turned : List String)

/-- Each stage has its fields, mirrored. -/
theorem stageFields_mirror (s : Stage) :
    (d.mirror turned).stageFields s = (d.stageFields s).map (Field.mirrorIn turned) := by
  have hsame {α : Type} (wrap : α → Field) (h : ∀ a, (wrap a).mirrorIn turned = wrap a)
      (fields : List α) : fields.map wrap = (fields.map wrap).map (Field.mirrorIn turned) := by
    rw [List.map_map]
    exact List.map_congr_left fun a _ ↦ (h a).symm
  cases s with
  | objectives =>
    show (d.objectives.map _).map _ = (d.objectives.map _).map _
    rw [List.map_map, List.map_map]
    rfl
  | _ => exact hsame _ (fun _ ↦ rfl) _

/-- So each stage claims what it claimed. -/
theorem stageClaims_mirror (s : Stage) :
    ((d.mirror turned).stageFields s).flatMap Field.claims =
      (d.stageFields s).flatMap Field.claims := by
  rw [stageFields_mirror, List.flatMap_map]
  exact congrArg List.flatten
    (List.map_congr_left fun field _ ↦ field.claims_mirrorIn turned)

theorem scope_mirror (s : Stage) : (d.mirror turned).scope s = d.scope s := by
  simp only [scope, stageClaims_mirror]
  rfl

/-- The problem claims what it claimed. -/
theorem claims_mirror : (d.mirror turned).claims = d.claims := by
  have hobjectives := d.stageClaims_mirror turned .objectives
  simp only [claims, fields, List.flatMap_append]
  exact congrArg (fun claims ↦ _ ++ claims ++ _ ++ _) hobjectives

/-- Nothing is wrong with the mirrored draft. -/
theorem fault?_mirror (h : d.fault? = none) : (d.mirror turned).fault? = none := by
  obtain ⟨hobjectives, hclaims, hexpressions, hreferences⟩ := fault?_eq_none_iff.mp h
  refine fault?_eq_none_iff.mpr ⟨?_, ?_, ?_, ?_⟩
  · exact fun hempty ↦ hobjectives (List.map_eq_nil_iff.mp hempty)
  · rw [claims_mirror]
    exact hclaims
  · refine expressionFault?_eq_none_iff.mpr fun g hg hexpr ↦ ?_
    obtain ⟨f, hf, rfl⟩ := List.mem_map.mp hg
    have hnone : f.expr? = none := by
      unfold Objective.mirrorIn at hexpr
      split at hexpr
      · exact Option.map_eq_none_iff.mp hexpr
      · exact hexpr
    rw [Objective.symbol_mirrorIn]
    exact expressionFault?_eq_none_iff.mp hexpressions f hf hnone
  · refine referenceFault?_eq_none_iff.mpr fun s field hfield e he symbol hsymbol ↦ ?_
    rw [stageFields_mirror] at hfield
    obtain ⟨original, horiginal, rfl⟩ := List.mem_map.mp hfield
    obtain ⟨e', he', hmentions⟩ := Field.mentions_mirrorIn he
    rw [scope_mirror]
    exact referenceFault?_eq_none_iff.mp hreferences s original horiginal e' he' symbol
      (hmentions ▸ hsymbol)

end Draft

/-- The problem with some of its objectives mirrored. -/
def Problem.mirror (p : Problem) (turned : List String) : Problem :=
  ⟨p.draft.mirror turned, p.draft.fault?_mirror turned p.sound⟩

/-! ### Scalarizations -/

/-- The map with the values of some symbols negated. -/
def SortedMap.negateIn (turned : List String) (m : SortedMap Float) : SortedMap Float :=
  ⟨m.entries.map (negateEntry turned fun value ↦ -value), List.pairwise_map.mpr m.sorted⟩

/-- Values are negated before or after they are looked up. -/
theorem SortedMap.find?_negateIn (turned : List String) (m : SortedMap Float) (symbol : String) :
    (m.negateIn turned).find? symbol =
      (m.find? symbol).map fun value ↦ if symbol ∈ turned then -value else value :=
  lookup_negateEntry turned (fun value ↦ -value) m.entries symbol

/-- The achievement function for the same point, where some objectives are mirrored. -/
def Achievement.mirror (a : Achievement) (turned : List String) : Achievement :=
  { a with reference := a.reference.negateIn turned }

/-- Objectives with other values under the same symbols have the parameters that they had, with
other values. -/
theorem withParameters_map {parameters parameters' : SortedMap Float}
    {words : String} {g : Objective → Objective} {h : Objective → Float → Float}
    (hsymbol : ∀ f, (g f).symbol = f.symbol)
    (hparameters : ∀ f, parameters'.find? f.symbol = (parameters.find? f.symbol).map (h f))
    (objectives : List Objective) :
    withParameters parameters' words (objectives.map g) =
      (withParameters parameters words objectives).map
        (List.map fun entry ↦ (g entry.1, h entry.1 entry.2)) := by
  induction objectives with
  | nil => rfl
  | cons f objectives ih =>
    rw [List.map_cons, withParameters, withParameters, hsymbol, hparameters, ih]
    cases parameters.find? f.symbol with
    | none => rfl
    | some parameter =>
      rcases withParameters parameters words objectives with error | rest <;> rfl

variable (p : Problem) (turned : List String)

/-- The weighted sum of the objectives is the same expression. -/
theorem weightedSum_mirror (weights : SortedMap Float) :
    weightedSum weights (p.mirror turned) = weightedSum weights p := by
  have hmap : withParameters weights "weight" (p.mirror turned).draft.objectives = _ :=
    withParameters_map (h := fun _ ↦ id) (Objective.symbol_mirrorIn turned)
      (fun _ ↦ Option.map_id_apply.symm) p.draft.objectives
  rw [weightedSum, weightedSum, hmap]
  rcases withParameters weights "weight" p.draft.objectives with error | entries
  · rfl
  · show Except.ok (Expr.total ((entries.map _).map _)) = _
    rw [List.map_map]
    simp only [Function.comp_def, id_eq, Objective.weighted_mirrorIn]

/-- The achievement function is the same expression if the reference values of the mirrored
objectives are negated. -/
theorem Achievement.scalarizer_mirror (a : Achievement) :
    (a.mirror turned).scalarizer (p.mirror turned) = a.scalarizer p := by
  have hmap : withParameters (a.mirror turned).reference "reference point value"
      (p.mirror turned).draft.objectives = _ :=
    withParameters_map (Objective.symbol_mirrorIn turned)
      (fun f ↦ a.reference.find?_negateIn turned f.symbol) p.draft.objectives
  rw [scalarizer, scalarizer, hmap]
  rcases withParameters a.reference "reference point value" p.draft.objectives with error | entries
  · rfl
  · simp only [Except.map, List.map_map, Function.comp_def, Objective.deviation_mirrorIn,
      Objective.weighted_mirrorIn, Objective.weight_mirrorIn]
    rfl

end Tradeoff
