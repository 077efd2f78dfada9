import Mathlib.Data.List.Nodup
import Mathlib.Data.List.Pairwise
import Mathlib.Data.List.Perm.Basic
import Mathlib.Logic.Relation
import Tradeoff.Proofs.Problem.Claims

/-!
# Sound drafts

What a draft has to satisfy to be a problem is told here without the checks (`Draft.Sound`): there
is an objective, symbols are identifiers, no two fields and aliases share one, objectives without an
expression have stored values, and expressions mention only what is visible in their stage
(`Draft.Visible`). A draft has no fault exactly if it is sound (`Draft.fault?_eq_none_iff_sound`).

In a sound draft no field refers to itself, not even through other fields
(`Draft.Sound.not_transGen_self`): every reference goes to a field of lower rank, which is given or
belongs to an earlier stage.
-/

namespace Tradeoff

/-! ### Symbols and aliases -/

/-- The alias of an identifier is an identifier, so that only the symbols of fields need a check. -/
theorem isIdentifier_minAlias {symbol : String} (h : isIdentifier symbol) :
    isIdentifier (minAlias symbol) := by
  have hrest (c : Char) (hc : c ∈ symbol.toList) : isIdentifierRest c :=
    isIdentifierRest_of_mem h hc
  have hname : (minAlias symbol).toList = symbol.toList ++ ['_', 'm', 'i', 'n'] :=
    String.toList_append
  have hvalue (value : String) (hlast : value.toList.getLast? ≠ some 'n') :
      minAlias symbol ≠ value := by
    rintro rfl
    exact hlast (by simp [hname])
  cases hchars : symbol.toList with
  | nil =>
    simp [isIdentifier, hchars] at h
  | cons first rest =>
    have hstart : isIdentifierStart first := by
      simp only [isIdentifier, hchars, Bool.and_eq_true] at h
      exact h.1.1.1
    have hall : (rest ++ ['_', 'm', 'i', 'n']).all isIdentifierRest := by
      rw [List.all_append, Bool.and_eq_true, List.all_eq_true]
      exact ⟨fun c hc ↦ hrest c (hchars ▸ List.mem_cons_of_mem _ hc), by decide⟩
    rw [hchars, List.cons_append] at hname
    simp only [isIdentifier, hname, hstart, hall, Bool.true_and, Bool.and_eq_true,
      decide_eq_true_eq]
    exact ⟨hvalue "true" (by decide), hvalue "false" (by decide)⟩

namespace Field

/-- The symbols that a field claims beside its own: of an objective, the alias. -/
def aliases : Field → List String
  | objective f => [minAlias f.symbol]
  | _ => []

theorem claims_eq (field : Field) : field.claims = field.symbol :: field.aliases := by
  cases field <;> rfl

/-- How late a field is evaluated: variables are given, and other fields have the rank of their
stage. -/
def rank : Field → Nat
  | decision _ => 0
  | constant _ => 1
  | extraFunction _ => 2
  | objective _ => 3
  | constraint _ => 4
  | scalarization _ => 5

end Field

namespace Draft

variable {d : Draft} {s : Stage} {field : Field}

/-- A field is a variable or belongs to a stage. -/
theorem mem_fields_iff : field ∈ d.fields ↔
    (∃ v ∈ d.decisions, field = .decision v) ∨ ∃ s, field ∈ d.stageFields s := by
  constructor
  · simp only [fields, List.mem_append, List.mem_map]
    rintro (((((h | ⟨v, hv, rfl⟩) | h) | h) | h) | h)
    · exact .inr ⟨.constants, List.mem_map.mpr h⟩
    · exact .inl ⟨v, hv, rfl⟩
    · exact .inr ⟨.extraFunctions, List.mem_map.mpr h⟩
    · exact .inr ⟨.objectives, List.mem_map.mpr h⟩
    · exact .inr ⟨.constraints, List.mem_map.mpr h⟩
    · exact .inr ⟨.scalarizations, List.mem_map.mpr h⟩
  · rintro (⟨v, hv, rfl⟩ | ⟨s, hs⟩)
    · simp [fields, hv]
    · cases s <;> simp only [stageFields] at hs <;> simp only [fields, List.mem_append, hs, true_or,
        or_true]

theorem mem_fields_of_mem_stageFields (h : field ∈ d.stageFields s) : field ∈ d.fields :=
  mem_fields_iff.mpr (.inr ⟨s, h⟩)

/-- The rank of a field counts the stages before its own. -/
theorem rank_of_mem_stageFields (h : field ∈ d.stageFields s) :
    field.rank = s.before.length + 1 := by
  cases s <;> obtain ⟨_, -, rfl⟩ := List.mem_map.mp h <;> rfl

/-- Only the fields of a stage have expressions. -/
theorem exists_stage_of_expr? (hfield : field ∈ d.fields) {e : Expr} (he : field.expr? = some e) :
    ∃ s, field ∈ d.stageFields s := by
  rcases mem_fields_iff.mp hfield with ⟨v, -, rfl⟩ | hstage
  · cases he
  · exact hstage

/-- The claimed symbols are those of all fields and the aliases of all objectives. -/
theorem claims_perm : d.claims.Perm
    (d.fields.map Field.symbol ++ d.objectives.map fun f ↦ minAlias f.symbol) := by
  have hclaims : d.claims = d.fields.flatMap fun field ↦ [field.symbol] ++ field.aliases :=
    congrArg List.flatten (List.map_congr_left fun field _ ↦ field.claims_eq)
  have haliases : d.fields.flatMap Field.aliases = d.objectives.map fun f ↦ minAlias f.symbol := by
    have hnone {α : Type} (others : List α) : (others.flatMap fun _ ↦ ([] : List String)) = [] :=
      List.flatMap_eq_nil_iff.mpr fun _ _ ↦ rfl
    simp only [fields, List.flatMap_append, List.flatMap_map, Field.aliases, hnone, List.nil_append,
      List.append_nil]
    exact List.map_eq_flatMap.symm
  rw [hclaims, ← haliases, List.map_eq_flatMap]
  exact (List.flatMap_append_perm d.fields (fun field ↦ [field.symbol]) Field.aliases).symm

theorem mem_claims_of_mem_fields (hfield : field ∈ d.fields) {symbol : String}
    (h : symbol ∈ field.claims) : symbol ∈ d.claims := List.mem_flatMap.mpr ⟨field, hfield, h⟩

/-- If no symbol is claimed twice, a claimed symbol tells the field. -/
theorem eq_of_mem_claims (hnodup : d.claims.Nodup) {other : Field} (hfield : field ∈ d.fields)
    (hother : other ∈ d.fields) {symbol : String} (h : symbol ∈ field.claims)
    (h' : symbol ∈ other.claims) : field = other := by
  by_contra hne
  have : Std.Symm (Function.onFun List.Disjoint Field.claims) := ⟨fun _ _ ↦ List.disjoint_symm⟩
  exact (List.nodup_flatMap.mp hnodup).2.forall hfield hother hne h h'

/-! ### Soundness -/

/-- The symbols that an expression may mention in a stage: those of decision variables and of fields
of earlier stages, and the aliases of objectives if these come earlier. -/
inductive Visible (d : Draft) (s : Stage) : String → Prop where
  /-- A decision variable. -/
  | decision {v : Variable} : v ∈ d.decisions → Visible d s v.symbol
  /-- A field of an earlier stage. -/
  | earlier {r : Stage} {field : Field} :
      r ∈ s.before → field ∈ d.stageFields r → Visible d s field.symbol
  /-- The alias of an objective. -/
  | oriented {f : Objective} : .objectives ∈ s.before → f ∈ d.objectives →
      Visible d s (minAlias f.symbol)

/-- The scope of a stage is what is visible there. -/
theorem mem_scope_iff {symbol : String} : symbol ∈ d.scope s ↔ d.Visible s symbol := by
  rw [scope, List.mem_append, List.mem_map, List.mem_flatMap]
  constructor
  · rintro (⟨v, hv, rfl⟩ | ⟨r, hr, hclaim⟩)
    · exact .decision hv
    · obtain ⟨field, hfield, hmem⟩ := List.mem_flatMap.mp hclaim
      rw [field.claims_eq, List.mem_cons] at hmem
      rcases hmem with rfl | halias
      · exact .earlier hr hfield
      · -- Only objectives have an alias, and they are all in one stage.
        cases r <;> obtain ⟨f, hf, rfl⟩ := List.mem_map.mp hfield
        case objectives =>
          obtain rfl := List.mem_singleton.mp halias
          exact .oriented hr hf
        all_goals exact absurd halias List.not_mem_nil
  · rintro (⟨hv⟩ | ⟨hr, hfield⟩ | @⟨f, hobjectives, hf⟩)
    · exact .inl ⟨_, hv, rfl⟩
    · exact .inr ⟨_, hr, List.mem_flatMap.mpr ⟨_, hfield, Field.symbol_mem_claims _⟩⟩
    · refine .inr ⟨_, hobjectives, List.mem_flatMap.mpr ⟨.objective f, List.mem_map_of_mem hf, ?_⟩⟩
      exact List.mem_cons_of_mem _ (List.mem_singleton_self _)

/-- The draft is sound: it describes a problem. -/
structure Sound (d : Draft) : Prop where
  /-- There is an objective. -/
  objectives : d.objectives ≠ []
  /-- The symbol of every field is an identifier. -/
  identifiers : ∀ field ∈ d.fields, isIdentifier field.symbol
  /-- No two fields have one symbol, none has that of an alias, and no two aliases are one. -/
  nodup : (d.fields.map Field.symbol ++ d.objectives.map fun f ↦ minAlias f.symbol).Nodup
  /-- An objective without an expression has stored values. -/
  stored : ∀ f ∈ d.objectives, f.expr? = none →
    ∃ samples, d.samples? = some samples ∧ f.symbol ∈ samples.values.keys
  /-- Expressions mention only what is visible in the stage of their field. -/
  references : ∀ s, ∀ field ∈ d.stageFields s, ∀ e, field.expr? = some e →
    ∀ symbol ∈ e.mentions, d.Visible s symbol

/-- A symbol is stored if the stored samples have values for it. -/
theorem isStored_iff {symbol : String} : d.isStored symbol ↔
    ∃ samples, d.samples? = some samples ∧ symbol ∈ samples.values.keys := by
  unfold isStored
  cases d.samples? with
  | none => simp
  | some samples =>
    have hfind : samples.values.find? symbol = none ↔ symbol ∉ samples.values.keys :=
      SortedMap.find?_eq_none_iff
    simp only [Option.some.injEq, exists_eq_left']
    rw [← Option.ne_none_iff_isSome, ne_eq, hfind, not_not]

/-- Every claimed symbol is an identifier if the symbols of the fields are. -/
theorem isIdentifier_of_mem_claims (h : ∀ field ∈ d.fields, isIdentifier field.symbol)
    {symbol : String} (hsymbol : symbol ∈ d.claims) : isIdentifier symbol := by
  rw [claims_perm.mem_iff, List.mem_append, List.mem_map, List.mem_map] at hsymbol
  rcases hsymbol with ⟨field, hfield, rfl⟩ | ⟨f, hf, rfl⟩
  · exact h field hfield
  · have hmem : .objective f ∈ d.fields :=
      mem_fields_of_mem_stageFields (s := .objectives) (List.mem_map_of_mem hf)
    exact isIdentifier_minAlias (h _ hmem)

/-- Nothing is wrong with a draft exactly if it is sound. -/
theorem fault?_eq_none_iff_sound : d.fault? = none ↔ d.Sound := by
  rw [fault?_eq_none_iff, claimFault?_eq_none_iff, expressionFault?_eq_none_iff,
    referenceFault?_eq_none_iff, claims_perm.nodup_iff]
  constructor
  · rintro ⟨hobjectives, ⟨hidentifiers, hnodup, -⟩, hstored, hreferences⟩
    refine ⟨hobjectives, fun field hfield ↦ ?_, hnodup,
      fun f hf hexpr ↦ isStored_iff.mp (hstored f hf hexpr),
      fun s field hfield e he symbol hsymbol ↦
        mem_scope_iff.mp (hreferences s field hfield e he symbol hsymbol)⟩
    exact hidentifiers _ (mem_claims_of_mem_fields hfield field.symbol_mem_claims)
  · intro h
    exact ⟨h.objectives, ⟨fun _ ↦ isIdentifier_of_mem_claims h.identifiers, h.nodup,
        fun _ _ ↦ List.not_mem_nil⟩,
      fun f hf hexpr ↦ isStored_iff.mpr (h.stored f hf hexpr),
      fun s field hfield e he symbol hsymbol ↦
        mem_scope_iff.mpr (h.references s field hfield e he symbol hsymbol)⟩

/-- A draft is built exactly if it is sound. -/
theorem exists_build_iff_sound : (∃ p, d.build = .ok p) ↔ d.Sound := by
  rw [← fault?_eq_none_iff_sound]
  constructor
  · rintro ⟨p, hp⟩
    exact (build_eq_ok_iff.mp hp).1
  · intro h
    exact ⟨⟨d, h⟩, build_eq_ok_iff.mpr ⟨h, rfl⟩⟩

/-! ### References -/

/-- A field refers to another one: its expression mentions a symbol that the other claims. -/
def RefersTo (d : Draft) (field other : Field) : Prop :=
  field ∈ d.fields ∧ other ∈ d.fields ∧
    ∃ e, field.expr? = some e ∧ ∃ symbol ∈ e.mentions, symbol ∈ other.claims

namespace Sound

variable (h : d.Sound)

include h

theorem nodup_claims : d.claims.Nodup := claims_perm.nodup_iff.mpr h.nodup

/-- No objective has the symbol of an alias. -/
theorem symbol_ne_minAlias {f g : Objective} (hf : f ∈ d.objectives) (hg : g ∈ d.objectives) :
    g.symbol ≠ minAlias f.symbol := by
  have hfield : .objective g ∈ d.fields :=
    mem_fields_of_mem_stageFields (s := .objectives) (List.mem_map_of_mem hg)
  exact (List.nodup_append.mp h.nodup).2.2 _ (List.mem_map_of_mem hfield) _ (List.mem_map_of_mem hf)

/-- Whatever claims a visible symbol is given or evaluated in an earlier stage. -/
theorem rank_le_of_visible {symbol : String} (hvisible : d.Visible s symbol) {other : Field}
    (hother : other ∈ d.fields) (hclaim : symbol ∈ other.claims) :
    other.rank ≤ s.before.length := by
  have hbefore {r : Stage} (hr : r ∈ s.before) {earlier : Field}
      (hearlier : earlier ∈ d.stageFields r) (hmem : symbol ∈ earlier.claims) :
      other.rank ≤ s.before.length := by
    obtain rfl := eq_of_mem_claims h.nodup_claims (mem_fields_of_mem_stageFields hearlier) hother
      hmem hclaim
    rw [rank_of_mem_stageFields hearlier]
    revert hr
    cases s <;> cases r <;> decide
  cases hvisible with
  | @decision v hv =>
    have hmem : .decision v ∈ d.fields := mem_fields_iff.mpr (.inl ⟨v, hv, rfl⟩)
    obtain rfl := eq_of_mem_claims h.nodup_claims hmem hother (Field.symbol_mem_claims _) hclaim
    exact Nat.zero_le _
  | earlier hr hfield => exact hbefore hr hfield (Field.symbol_mem_claims _)
  | @oriented f hobjectives hf =>
    exact hbefore hobjectives (List.mem_map_of_mem hf)
      (List.mem_cons_of_mem _ (List.mem_singleton_self _))

/-- References go to lower ranks. -/
theorem rank_lt_of_refersTo {other : Field} (hrefers : d.RefersTo field other) :
    other.rank < field.rank := by
  obtain ⟨hfield, hother, e, he, symbol, hsymbol, hclaim⟩ := hrefers
  obtain ⟨s, hs⟩ := exists_stage_of_expr? hfield he
  have hrank := h.rank_le_of_visible (h.references s field hs e he symbol hsymbol) hother hclaim
  rw [rank_of_mem_stageFields hs]
  omega

/-- References lead to lower and lower ranks, so no field is reached from itself. -/
theorem not_transGen_self (field : Field) : ¬ Relation.TransGen d.RefersTo field field := by
  have hlt {other : Field} (hreach : Relation.TransGen d.RefersTo field other) :
      other.rank < field.rank := by
    induction hreach with
    | single hrefers => exact h.rank_lt_of_refersTo hrefers
    | tail _ hrefers ih => exact Nat.lt_trans (h.rank_lt_of_refersTo hrefers) ih
  intro hcycle
  exact Nat.lt_irrefl _ (hlt hcycle)

end Sound

end Draft

theorem Problem.isSound (p : Problem) : p.draft.Sound := Draft.fault?_eq_none_iff_sound.mp p.sound

end Tradeoff
