import Tradeoff.Proofs.Problem.Soundness

/-!
# The first fault of a draft

A draft can be wrong in many places, of which one is reported. The places are told by `Check`: that
there is an objective, then the symbol and the alias of each field, then the expressions that
objectives lack, and last the symbols that expressions mention, stage by stage, field by field and
in the order of the symbols (`Check.Before`). `Draft.Violates` tells what is wrong in a place, and
with it the error that is reported for the place.

A draft is a problem exactly if it is sound, and otherwise the error is the one of the first place
that is wrong (`Draft.build_sound_or_first_violation`). That the reported error belongs to a first
place is seen from the scans (`Draft.exists_first_of_fault?`); the converse holds because the places
are ordered totally and each has at most one error.
-/

namespace Tradeoff

/-- A place where a draft can be wrong. Fields and objectives are told by their position. -/
inductive Check where
  /-- The objectives as a whole. -/
  | objectives
  /-- The symbol of a field. -/
  | symbolAt (field : Nat)
  /-- The alias of a field that is an objective. -/
  | aliasAt (field : Nat)
  /-- The values of an objective. -/
  | valuesAt (objective : Nat)
  /-- A symbol that the expression of a field of a stage mentions. -/
  | mentionAt (s : Stage) (field : Nat) (symbol : String)

namespace Check

/-- The round in which a place is looked at. -/
def round : Check → Nat
  | objectives => 0
  | symbolAt _ | aliasAt _ => 1
  | valuesAt _ => 2
  | mentionAt _ _ _ => 3

/-- The position of a place in its round. The symbol of a field is followed by its alias. -/
def position : Check → Nat
  | symbolAt field => 2 * field
  | aliasAt field => 2 * field + 1
  | valuesAt objective => objective
  | objectives | mentionAt _ _ _ => 0

/-- The first place is looked at before the second. -/
inductive Before : Check → Check → Prop where
  /-- It has an earlier round. -/
  | round {c c' : Check} : c.round < c'.round → Before c c'
  /-- It comes earlier in the same round. -/
  | position {c c' : Check} : c.round = c'.round → c.position < c'.position → Before c c'
  /-- The field belongs to an earlier stage. -/
  | stage {r s : Stage} {i j : Nat} {name name' : String} :
      r ∈ s.before → Before (mentionAt r i name) (mentionAt s j name')
  /-- The field comes earlier in the same stage. -/
  | field {s : Stage} {i j : Nat} {name name' : String} :
      i < j → Before (mentionAt s i name) (mentionAt s j name')
  /-- The symbol is smaller. -/
  | mention {s : Stage} {i : Nat} {name name' : String} :
      name < name' → Before (mentionAt s i name) (mentionAt s i name')

/-- Symbols are ordered totally. -/
theorem lt_or_eq_or_lt (name name' : String) : name < name' ∨ name = name' ∨ name' < name := by
  by_cases hlt : name < name'
  · exact .inl hlt
  · by_cases heq : name = name'
    · exact .inr (.inl heq)
    · exact .inr (.inr (Std.lt_of_le_of_ne (String.not_lt.mp hlt) (Ne.symm heq)))

theorem before_total_of_mentionAt (r s : Stage) (i j : Nat) (name name' : String) :
    (mentionAt r i name).Before (mentionAt s j name') ∨
      mentionAt r i name = mentionAt s j name' ∨
      (mentionAt s j name').Before (mentionAt r i name) := by
  have hstages : r ∈ s.before ∨ r = s ∨ s ∈ r.before := by
    cases r <;> cases s <;> decide
  rcases hstages with hr | rfl | hs
  · exact .inl (.stage hr)
  · rcases Nat.lt_trichotomy i j with hi | rfl | hj
    · exact .inl (.field hi)
    · rcases lt_or_eq_or_lt name name' with hname | rfl | hname
      · exact .inl (.mention hname)
      · exact .inr (.inl rfl)
      · exact .inr (.inr (.mention hname))
    · exact .inr (.inr (.field hj))
  · exact .inr (.inr (.stage hs))

/-- Two places of one round and position are one, unless they are mentioned symbols. -/
theorem eq_of_position_eq {c c' : Check} (hround : c.round = c'.round)
    (hposition : c.position = c'.position) :
    c = c' ∨ ∃ r s i j name name', c = mentionAt r i name ∧ c' = mentionAt s j name' := by
  cases c <;> cases c' <;> simp [round, position] at hround hposition ⊢ <;> omega

/-- Of two places, one is looked at before the other. -/
theorem before_total (c c' : Check) : c.Before c' ∨ c = c' ∨ c'.Before c := by
  rcases Nat.lt_trichotomy c.round c'.round with hround | hround | hround
  · exact .inl (.round hround)
  · rcases Nat.lt_trichotomy c.position c'.position with hposition | hposition | hposition
    · exact .inl (.position hround hposition)
    · rcases eq_of_position_eq hround hposition with heq | ⟨r, s, i, j, name, name', rfl, rfl⟩
      · exact .inr (.inl heq)
      · exact before_total_of_mentionAt r s i j name name'
    · exact .inr (.inr (.position hround.symm hposition))
  · exact .inr (.inr (.round hround))

end Check

/-! ### Violations -/

namespace Draft

/-- What is wrong with a draft in a place, with the error that tells it. -/
inductive Violates (d : Draft) : Check → ProblemError → Prop where
  /-- There is no objective. -/
  | noObjectives : d.objectives = [] → Violates d .objectives .noObjectives
  /-- The symbol of a field is no identifier. -/
  | invalid {i : Nat} {field : Field} : d.fields[i]? = some field → ¬ isIdentifier field.symbol →
      Violates d (.symbolAt i) (.invalidSymbol field.symbol)
  /-- The symbol of a field has been claimed by an earlier one. -/
  | duplicate {i : Nat} {field : Field} : d.fields[i]? = some field → isIdentifier field.symbol →
      field.symbol ∈ (d.fields.take i).flatMap Field.claims →
      Violates d (.symbolAt i) (.duplicateSymbol field.symbol)
  /-- The alias of an objective has been claimed by an earlier field. -/
  | duplicateAlias {i : Nat} {f : Objective} : d.fields[i]? = some (.objective f) →
      minAlias f.symbol ∈ (d.fields.take i).flatMap Field.claims →
      Violates d (.aliasAt i) (.duplicateSymbol (minAlias f.symbol))
  /-- An objective has neither an expression nor stored values. -/
  | missing {i : Nat} {f : Objective} : d.objectives[i]? = some f → f.expr? = none →
      (∀ samples, d.samples? = some samples → f.symbol ∉ samples.values.keys) →
      Violates d (.valuesAt i) (.missingExpression f.symbol)
  /-- An expression mentions a symbol that is not visible in its stage. -/
  | unknown {s : Stage} {i : Nat} {field : Field} {e : Expr} {symbol : String} :
      (d.stageFields s)[i]? = some field → field.expr? = some e → symbol ∈ e.mentions →
      ¬ d.Visible s symbol → Violates d (.mentionAt s i symbol) (.unknownSymbol symbol field.symbol)

/-- The draft is wrong there, as the error tells, and in no place that is looked at before. -/
structure FirstViolates (d : Draft) (c : Check) (error : ProblemError) : Prop where
  /-- It is wrong there. -/
  violates : d.Violates c error
  /-- Before, nothing is wrong. -/
  first : ∀ c' error', c'.Before c → ¬ d.Violates c' error'

variable {d : Draft} {c : Check} {error : ProblemError}

/-- In every place at most one thing is wrong. -/
theorem Violates.unique {error' : ProblemError} (h : d.Violates c error)
    (h' : d.Violates c error') : error = error' := by
  cases h with
  | noObjectives => cases h'; rfl
  | invalid hfield hinvalid =>
    cases h' with
    | invalid hfield' =>
      cases hfield.symm.trans hfield'
      rfl
    | duplicate hfield' hvalid =>
      cases hfield.symm.trans hfield'
      exact absurd hvalid hinvalid
  | duplicate hfield hvalid =>
    cases h' with
    | invalid hfield' hinvalid =>
      cases hfield.symm.trans hfield'
      exact absurd hvalid hinvalid
    | duplicate hfield' =>
      cases hfield.symm.trans hfield'
      rfl
  | duplicateAlias hfield =>
    cases h' with
    | duplicateAlias hfield' =>
      cases hfield.symm.trans hfield'
      rfl
  | missing hf =>
    cases h' with
    | missing hf' =>
      cases hf.symm.trans hf'
      rfl
  | unknown hfield =>
    cases h' with
    | unknown hfield' =>
      cases hfield.symm.trans hfield'
      rfl

/-- Two places cannot both be the first that is wrong. -/
theorem FirstViolates.unique {c' : Check} {error' : ProblemError} (h : d.FirstViolates c error)
    (h' : d.FirstViolates c' error') : error = error' := by
  rcases c.before_total c' with hbefore | rfl | hbefore
  · exact absurd h.violates (h'.first c error hbefore)
  · exact h.violates.unique h'.violates
  · exact absurd h'.violates (h.first c' error' hbefore)

/-! ### The rounds -/

theorem eq_take_append_drop {α : Type} {xs : List α} {i : Nat} {x : α} (h : xs[i]? = some x) :
    xs = xs.take i ++ x :: xs.drop (i + 1) := by
  obtain ⟨hi, rfl⟩ := List.getElem?_eq_some_iff.mp h
  rw [← List.drop_eq_getElem_cons hi, List.take_append_drop]

theorem claimFault?_append (seen claims more : List String) :
    claimFault? seen (claims ++ more) =
      (claimFault? seen claims).or (claimFault? (claims.reverse ++ seen) more) := by
  induction claims generalizing seen with
  | nil => simp [claimFault?]
  | cons symbol claims ih =>
    rw [List.cons_append, claimFault?, claimFault?]
    split
    · rfl
    · split
      · rfl
      · rw [ih, List.reverse_cons, List.append_assoc]
        rfl

/-- The first fault among the claims of some fields is one of a first field. -/
theorem exists_of_claimFault?_fields {fields : List Field} {seen : List String}
    (h : claimFault? seen (fields.flatMap Field.claims) = some error) :
    ∃ earlier field later, fields = earlier ++ field :: later ∧
      claimFault? seen (earlier.flatMap Field.claims) = none ∧
      claimFault? ((earlier.flatMap Field.claims).reverse ++ seen) field.claims = some error := by
  induction fields generalizing seen with
  | nil => cases h
  | cons field fields ih =>
    rw [List.flatMap_cons, claimFault?_append, Option.or_eq_some_iff] at h
    rcases h with hfield | ⟨hnone, hlater⟩
    · exact ⟨[], field, fields, rfl, rfl, hfield⟩
    · obtain ⟨earlier, other, later, rfl, hearlier, hother⟩ := ih hlater
      refine ⟨field :: earlier, other, later, rfl, ?_, ?_⟩
      · rw [List.flatMap_cons, claimFault?_append, hnone, Option.none_or, hearlier]
      · rwa [List.flatMap_cons, List.reverse_append, List.append_assoc]

theorem not_violates_of_round (hobjectives : d.objectives ≠ []) (hround : c.round < 1) :
    ¬ d.Violates c error := by
  intro hviolates
  cases hviolates with
  | noObjectives hnone => exact hobjectives hnone
  | _ => simp [Check.round] at hround

/-- As long as the claims of the first fields have no fault, these fields have none. -/
theorem not_violates_of_claimFault? {earlier later : List Field}
    (hfields : d.fields = earlier ++ later)
    (h : claimFault? [] (earlier.flatMap Field.claims) = none) (hround : c.round = 1)
    (hposition : c.position < 2 * earlier.length) : ¬ d.Violates c error := by
  obtain ⟨hidentifiers, hnodup, -⟩ := claimFault?_eq_none_iff.mp h
  have hearlier {i : Nat} {field : Field} (hi : i < earlier.length)
      (hfield : d.fields[i]? = some field) : earlier[i]? = some field := by
    rwa [hfields, List.getElem?_append_left hi] at hfield
  -- What a field claims was not claimed before it, since the claims have no duplicates.
  have hfresh {i : Nat} {field : Field} (hi : i < earlier.length)
      (hfield : d.fields[i]? = some field) {symbol : String} (hclaim : symbol ∈ field.claims) :
      symbol ∉ (d.fields.take i).flatMap Field.claims := by
    rw [hfields, List.take_append_of_le_length (Nat.le_of_lt hi)]
    rw [eq_take_append_drop (hearlier hi hfield), List.flatMap_append, List.flatMap_cons] at hnodup
    exact fun hmem ↦ (List.nodup_append.mp hnodup).2.2 symbol hmem symbol
      (List.mem_append_left _ hclaim) rfl
  intro hviolates
  cases hviolates with
  | @invalid i field hfield hinvalid =>
    have hi : i < earlier.length := by simp only [Check.position] at hposition; omega
    have hmem := List.mem_of_getElem? (hearlier hi hfield)
    exact hinvalid (hidentifiers _ (List.mem_flatMap.mpr ⟨field, hmem, field.symbol_mem_claims⟩))
  | @duplicate i field hfield _ hmem =>
    have hi : i < earlier.length := by simp only [Check.position] at hposition; omega
    exact hfresh hi hfield field.symbol_mem_claims hmem
  | @duplicateAlias i f hfield hmem =>
    have hi : i < earlier.length := by simp only [Check.position] at hposition; omega
    exact hfresh hi hfield (List.mem_cons_of_mem _ (List.mem_singleton_self _)) hmem
  | noObjectives => cases hround
  | missing => cases hround
  | unknown => cases hround

/-- Nothing is wrong with a symbol that is an identifier and that no earlier field claims. -/
theorem not_violates_symbolAt {i : Nat} {field : Field} (hfield : d.fields[i]? = some field)
    (hvalid : isIdentifier field.symbol)
    (hfresh : field.symbol ∉ (d.fields.take i).flatMap Field.claims) :
    ¬ d.Violates (.symbolAt i) error := by
  intro hviolates
  cases hviolates with
  | invalid hfield' hinvalid =>
    cases hfield.symm.trans hfield'
    exact hinvalid hvalid
  | duplicate hfield' _ hmem =>
    cases hfield.symm.trans hfield'
    exact hfresh hmem

/-- A fault of an alias is that it was claimed before. -/
theorem of_claimFault?_aliases {field : Field} {seen : List String}
    (hvalid : isIdentifier field.symbol)
    (h : claimFault? (field.symbol :: seen) field.aliases = some error) :
    ∃ f, field = .objective f ∧ minAlias f.symbol ∈ seen ∧
      error = .duplicateSymbol (minAlias f.symbol) := by
  cases field with
  | objective f =>
    have hlonger : minAlias f.symbol ≠ f.symbol := fun heq ↦ by
      have hlength := congrArg String.length heq
      simp [minAlias] at hlength
    have hseen : minAlias f.symbol ∈ f.symbol :: seen ↔ minAlias f.symbol ∈ seen := by
      simp [hlonger]
    have halias : isIdentifier (minAlias f.symbol) := isIdentifier_minAlias hvalid
    simp only [Field.aliases, Field.symbol, claimFault?, halias, hseen, Bool.not_true,
      Bool.false_eq_true, if_false] at h
    split at h
    · next hmem =>
      cases h
      exact ⟨f, rfl, hmem, rfl⟩
    · cases h
  | _ => cases h

/-- The first fault among the claims is that of the first place. -/
theorem exists_first_of_claimFault? (hobjectives : d.objectives ≠ [])
    (h : claimFault? [] d.claims = some error) : ∃ c, d.FirstViolates c error := by
  obtain ⟨earlier, field, later, hfields, hearlier, hfault⟩ := exists_of_claimFault?_fields h
  have hfield : d.fields[earlier.length]? = some field := by simp [hfields]
  have htake : d.fields.take earlier.length = earlier := by simp [hfields]
  have hround (c : Check) (error' : ProblemError) (hround : c.round < 1) : ¬ d.Violates c error' :=
    not_violates_of_round hobjectives hround
  have hsymbol (c : Check) (error' : ProblemError) (hbefore : c.Before (.symbolAt earlier.length)) :
      ¬ d.Violates c error' := by
    cases hbefore with
    | round hlt => exact hround c error' hlt
    | position heq hlt => exact not_violates_of_claimFault? hfields hearlier heq hlt
  rw [field.claims_eq, List.append_nil, claimFault?] at hfault
  split at hfault
  · next hinvalid =>
    cases hfault
    exact ⟨_, .invalid hfield (by simpa using hinvalid), hsymbol⟩
  · next hvalid =>
    have hvalid : isIdentifier field.symbol := by simpa using hvalid
    split at hfault
    · next hseen =>
      cases hfault
      rw [List.mem_reverse] at hseen
      exact ⟨_, .duplicate hfield hvalid (htake.symm ▸ hseen), hsymbol⟩
    · next hfresh =>
      obtain ⟨f, rfl, hseen, rfl⟩ := of_claimFault?_aliases hvalid hfault
      rw [List.mem_reverse] at hseen hfresh
      refine ⟨_, .duplicateAlias hfield (htake.symm ▸ hseen), fun c error' hbefore ↦ ?_⟩
      -- Right before the alias of the field stands its own symbol.
      cases hbefore with
      | round hlt => exact hround c error' hlt
      | position heq hlt =>
        rcases Nat.lt_or_eq_of_le (Nat.le_of_lt_succ hlt) with hlt | hposition
        · exact not_violates_of_claimFault? hfields hearlier heq hlt
        · have hplace : c = .symbolAt earlier.length ∨ _ := Check.eq_of_position_eq heq hposition
          rcases hplace with rfl | ⟨_, _, _, _, _, _, _, hmention⟩
          · exact not_violates_symbolAt hfield hvalid (htake.symm ▸ hfresh)
          · cases hmention

/-- If there is an objective and the claims have no fault, nothing is wrong in the first two
rounds. -/
theorem not_violates_of_claims (hobjectives : d.objectives ≠ [])
    (hclaims : claimFault? [] d.claims = none) (hround : c.round < 2) : ¬ d.Violates c error := by
  intro hviolates
  have hlength {i : Nat} {field : Field} (hfield : d.fields[i]? = some field) :
      i < d.fields.length := (List.getElem?_eq_some_iff.mp hfield).1
  rcases Nat.lt_or_eq_of_le (Nat.le_of_lt_succ hround) with hlt | heq
  · exact not_violates_of_round hobjectives hlt hviolates
  · refine not_violates_of_claimFault? (List.append_nil _).symm hclaims heq ?_ hviolates
    cases hviolates with
    | invalid hfield | duplicate hfield | duplicateAlias hfield =>
      have := hlength hfield
      simp only [Check.position]
      omega
    | _ => simp [Check.round] at heq

/-- The first objective that lacks values is the first place. -/
theorem exists_first_of_expressionFault? (hobjectives : d.objectives ≠ [])
    (hclaims : claimFault? [] d.claims = none) (h : d.expressionFault? = some error) :
    ∃ c, d.FirstViolates c error := by
  have hlacks (f : Objective) : (f.expr?.isNone && !d.isStored f.symbol) = true ↔
      f.expr? = none ∧ ∀ samples, d.samples? = some samples → f.symbol ∉ samples.values.keys := by
    rw [Bool.and_eq_true, Option.isNone_iff_eq_none, Bool.not_eq_true', ← Bool.not_eq_true,
      isStored_iff]
    simp
  obtain ⟨f, hfind, rfl⟩ := Option.map_eq_some_iff.mp h
  obtain ⟨hf, earlier, later, hsplit, hearlier⟩ := List.find?_eq_some_iff_append.mp hfind
  obtain ⟨hexpr, hstored⟩ := (hlacks f).mp hf
  refine ⟨.valuesAt earlier.length, .missing (by simp [hsplit]) hexpr hstored,
    fun c error' hbefore ↦ ?_⟩
  cases hbefore with
  | round hround => exact not_violates_of_claims hobjectives hclaims hround
  | position hround hposition =>
    intro hviolates
    cases hviolates with
    | @missing i f' hf' hexpr' hstored' =>
      have hi : i < earlier.length := hposition
      rw [hsplit, List.getElem?_append_left hi] at hf'
      have hfine := hearlier f' (List.mem_of_getElem? hf')
      rw [(hlacks f').mpr ⟨hexpr', hstored'⟩] at hfine
      cases hfine
    | _ => simp [Check.round] at hround

/-- If moreover every objective has values, nothing is wrong in the first three rounds. -/
theorem not_violates_of_expressions (hobjectives : d.objectives ≠ [])
    (hclaims : claimFault? [] d.claims = none) (hexpressions : d.expressionFault? = none)
    (hround : c.round < 3) : ¬ d.Violates c error := by
  intro hviolates
  rcases Nat.lt_or_eq_of_le (Nat.le_of_lt_succ hround) with hlt | heq
  · exact not_violates_of_claims hobjectives hclaims hlt hviolates
  · cases hviolates with
    | missing hf hexpr hstored =>
      have hvalues := expressionFault?_eq_none_iff.mp hexpressions _ (List.mem_of_getElem? hf) hexpr
      obtain ⟨samples, hsamples, hmem⟩ := isStored_iff.mp hvalues
      exact hstored samples hsamples hmem
    | _ => simp [Check.round] at heq

/-- The symbols that an expression mentions are looked at in their order. -/
theorem pairwise_symbols (e : Expr) : e.symbols.Pairwise (· < ·) :=
  List.pairwise_map.mpr (SortedMap.sorted _)

/-- The fault of an expression is its smallest symbol out of scope. -/
theorem of_referenceFault?_field {scope : List String} {field : Field}
    (h : field.referenceFault? scope = some error) :
    ∃ e symbol, field.expr? = some e ∧ error = .unknownSymbol symbol field.symbol ∧
      symbol ∈ e.mentions ∧ symbol ∉ scope ∧
      ∀ other ∈ e.mentions, other < symbol → other ∈ scope := by
  have hmentions (e : Expr) (symbol : String) : symbol ∈ e.symbols ↔ symbol ∈ e.mentions :=
    mem_sortSymbols
  unfold Field.referenceFault? at h
  split at h
  · cases h
  · next e he =>
    obtain ⟨symbol, hfind, rfl⟩ := Option.map_eq_some_iff.mp h
    obtain ⟨hout, smaller, larger, hsplit, hsmaller⟩ := List.find?_eq_some_iff_append.mp hfind
    refine ⟨e, symbol, he, rfl, (hmentions e symbol).mp (by simp [hsplit]), by simpa using hout,
      fun other hother hlt ↦ ?_⟩
    have hsorted := pairwise_symbols e
    rw [hsplit, List.pairwise_append, List.pairwise_cons] at hsorted
    rw [← hmentions, hsplit, List.mem_append, List.mem_cons] at hother
    -- Neither the symbol itself nor one that comes after it is smaller.
    rcases hother with hother | rfl | hother
    · simpa using hsmaller other hother
    · exact absurd hlt (String.lt_irrefl _)
    · exact absurd (String.lt_trans hlt (hsorted.2.1.1 other hother)) (String.lt_irrefl _)

/-- The first mentioned symbol out of scope is the first place. -/
theorem exists_first_of_referenceFault? (hobjectives : d.objectives ≠ [])
    (hclaims : claimFault? [] d.claims = none) (hexpressions : d.expressionFault? = none)
    (h : d.referenceFault? = some error) : ∃ c, d.FirstViolates c error := by
  obtain ⟨front, s, rest, hstages, hstage, hfront⟩ := List.findSome?_eq_some_iff.mp h
  have hall : Stage.scalarizations.upTo = front ++ s :: rest := hstages
  obtain rfl : front = s.before := Stage.eq_before_of_upTo_eq hall
  obtain ⟨earlier, field, later, hfields, hfield, hearlier⟩ := List.findSome?_eq_some_iff.mp hstage
  obtain ⟨e, symbol, he, rfl, hmentions, hout, hsmaller⟩ := of_referenceFault?_field hfield
  have hplace : (d.stageFields s)[earlier.length]? = some field := by simp [hfields]
  have hvisible {r : Stage} {name : String} (hscope : name ∈ d.scope r) : d.Visible r name :=
    mem_scope_iff.mp hscope
  refine ⟨.mentionAt s earlier.length symbol,
    .unknown hplace he hmentions (mt mem_scope_iff.mpr hout), fun c error' hbefore hviolates ↦ ?_⟩
  cases hbefore with
  | round hround =>
    exact not_violates_of_expressions hobjectives hclaims hexpressions hround hviolates
  | position _ hposition => cases hposition
  | stage hr =>
    cases hviolates with
    | unknown hfield' he' hmentions' hout' =>
      have hnone := List.findSome?_eq_none_iff.mp (hfront _ hr) _ (List.mem_of_getElem? hfield')
      exact hout' (hvisible (Field.referenceFault?_eq_none_iff.mp hnone _ he' _ hmentions'))
  | field hi =>
    cases hviolates with
    | unknown hfield' he' hmentions' hout' =>
      rw [hfields, List.getElem?_append_left hi] at hfield'
      have hnone := hearlier _ (List.mem_of_getElem? hfield')
      exact hout' (hvisible (Field.referenceFault?_eq_none_iff.mp hnone _ he' _ hmentions'))
  | mention hlt =>
    cases hviolates with
    | unknown hfield' he' hmentions' hout' =>
      cases hplace.symm.trans hfield'
      cases he.symm.trans he'
      exact hout' (hvisible (hsmaller _ hmentions' hlt))

/-- Whatever is wrong with a draft, the fault that is found is that of the first place. -/
theorem exists_first_of_fault? (h : d.fault? = some error) : ∃ c, d.FirstViolates c error := by
  unfold fault? at h
  split at h
  · next hempty =>
    cases h
    have hnone : d.objectives = [] := by simpa using hempty
    refine ⟨.objectives, .noObjectives hnone, fun c error' hbefore ↦ ?_⟩
    cases hbefore with
    | round hround => cases hround
    | position _ hposition => cases hposition
  · next hempty =>
    have hobjectives : d.objectives ≠ [] := by simpa using hempty
    rw [Option.or_eq_some_iff, Option.or_eq_some_iff] at h
    rcases h with hclaims | ⟨hclaims, hexpressions | ⟨hexpressions, hreferences⟩⟩
    · exact exists_first_of_claimFault? hobjectives hclaims
    · exact exists_first_of_expressionFault? hobjectives hclaims hexpressions
    · exact exists_first_of_referenceFault? hobjectives hclaims hexpressions hreferences

/-- Nothing is wrong with a sound draft in any place. -/
theorem Sound.not_violates (h : d.Sound) : ¬ d.Violates c error := by
  obtain ⟨hobjectives, hclaims, hexpressions, -⟩ :=
    fault?_eq_none_iff.mp (fault?_eq_none_iff_sound.mpr h)
  intro hviolates
  have hlate : ¬ c.round < 3 := fun hround ↦
    not_violates_of_expressions hobjectives hclaims hexpressions hround hviolates
  cases hviolates with
  | unknown hfield he hmentions hout =>
    exact hout (h.references _ _ (List.mem_of_getElem? hfield) _ he _ hmentions)
  | _ => simp [Check.round] at hlate

/-! ### Building -/

/-- A draft is a problem exactly if it is sound, and then it is the problem of its fields, which do
not refer to themselves, directly or through others. Otherwise the error tells what is wrong in the
first place that is wrong. -/
theorem build_sound_or_first_violation (d : Draft) :
    ((∃ p, d.build = .ok p) ↔ d.Sound) ∧
    (∀ p, d.build = .ok p →
      p.draft = d ∧ ∀ field, ¬ Relation.TransGen p.draft.RefersTo field field) ∧
    ∀ error, d.build = .error error ↔ ∃ c, d.FirstViolates c error := by
  refine ⟨exists_build_iff_sound, fun p hp ↦ ⟨(build_eq_ok_iff.mp hp).2, ?_⟩, fun error ↦ ?_⟩
  · exact p.isSound.not_transGen_self
  · rw [build_eq_error_iff]
    constructor
    · exact exists_first_of_fault?
    · rintro ⟨c, hc⟩
      -- The draft is not sound, so there is a fault, which is that of the same place.
      rcases hfault : d.fault? with _ | error'
      · exact absurd hc.violates (fault?_eq_none_iff_sound.mp hfault).not_violates
      · obtain ⟨c', hc'⟩ := exists_first_of_fault? hfault
        rw [hc.unique hc']

/-- A draft with a scalarization of its only objective. -/
def scalarizedDraft : Draft :=
  { Draft.empty "scalarized" with
    decisions := [⟨"x", "x", .scalar, none, none, none⟩]
    objectives := [⟨"f", "f", some (.symbol "x"), false, none, none⟩]
    scalarizations := [⟨"s", "s", .symbol "f_min"⟩] }

/-- The draft with a constant that claims the alias of the objective, and with a constraint that
mentions the scalarization. -/
def clashingDraft : Draft :=
  { scalarizedDraft with
    constants := [⟨"c", "f_min", .number 1⟩]
    constraints := [⟨"g", "g", .symbol "s", .atMost⟩] }

/-- The clash comes first. Without the two fields the draft is a problem, in which nothing refers to
itself. -/
theorem clashingDraft_build :
    clashingDraft.build = .error (.duplicateSymbol "f_min") ∧
    (∃ c, clashingDraft.FirstViolates c (.duplicateSymbol "f_min")) ∧
    ¬ clashingDraft.Sound ∧ (∃ p, scalarizedDraft.build = .ok p) ∧ scalarizedDraft.Sound ∧
    ∀ field, ¬ Relation.TransGen scalarizedDraft.RefersTo field field := by
  have herror : clashingDraft.build = .error (.duplicateSymbol "f_min") :=
    build_eq_error_iff.mpr (by decide +kernel)
  let p : Problem := ⟨scalarizedDraft, by decide +kernel⟩
  have hok : scalarizedDraft.build = .ok p := build_eq_ok_iff.mpr ⟨p.sound, rfl⟩
  obtain ⟨hsound, -, hfirst⟩ := clashingDraft.build_sound_or_first_violation
  obtain ⟨hsound', hproblem, -⟩ := scalarizedDraft.build_sound_or_first_violation
  refine ⟨herror, (hfirst _).mp herror, fun h ↦ ?_, ⟨p, hok⟩, hsound'.mp ⟨p, hok⟩,
    (hproblem p hok).2⟩
  obtain ⟨q, hq⟩ := hsound.mpr h
  cases herror.symm.trans hq

end Draft

end Tradeoff
