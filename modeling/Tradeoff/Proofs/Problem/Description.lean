import Tradeoff.Proofs.Problem.Loading
import Tradeoff.Proofs.Problem.Soundness

/-!
# Descriptions read back

Reading the description of a problem gives the problem again, if its numbers are finite and its
operators have the arguments they take. Each reader inverts the writer of its part: of lists, if it
does so for the items (`Json.readAll_map`), of fields with data if the data is finite, of fields
with expressions as far as the expressions read back (`Json.readFunction_describe` and so on).

That a bare symbol is written as a string, which is read as a formula, does no harm: all symbols
that expressions of a problem mention are identifiers.
-/

namespace Tradeoff

namespace Json

/-! ### Readers of what is there -/

section Readers

variable {α β : Type} {read : Json → Reading α}

@[simp] theorem pure_eq_ok (a : α) : (pure a : Reading α) = .ok a := rfl

@[simp] theorem ok_bind (a : α) (next : α → Reading β) :
    ((.ok a : Reading α) >>= next) = next a := rfl

@[simp] theorem readParts_object (ofFields : List (String × Json) → Reading α)
    (ofItems : ItemReader α) (fields : List (String × Json)) :
    readParts ofFields ofItems (.object fields) = ofFields fields := rfl

@[simp] theorem readField?_nil (key : String) : readField? [] key read = .ok none := rfl

/-- A field is read where its key is first. -/
@[simp] theorem readField?_cons (field : String × Json) (fields : List (String × Json))
    (key : String) :
    readField? (field :: fields) key read =
      if key = field.1 then read field.2 >>= fun value ↦ .ok (some value)
      else readField? fields key read := by
  unfold readField?
  rw [lookup_cons]
  by_cases h : key = field.1
  · rw [if_pos h, if_pos h]
    rfl
  · rw [if_neg h, if_neg h]

@[simp] theorem require_some (key : String) (value : α) : require key (some value) = .ok value :=
  rfl

@[simp] theorem readText_string (s : String) : readText (.string s) = .ok s := rfl

@[simp] theorem readFlag_bool (b : Bool) : readFlag (.bool b) = .ok b := rfl

@[simp] theorem readList_array (items : List Json) :
    readList read (.array items) = readAll read items := rfl

/-- A list whose items read back reads back. -/
theorem readAll_map {write : α → Json} {xs : List α} (h : ∀ x ∈ xs, read (write x) = .ok x) :
    readAll read (xs.map write) = .ok xs := by
  induction xs with
  | nil => rfl
  | cons x xs ih =>
    rw [List.forall_mem_cons] at h
    rw [List.map_cons, readAll, h.1, ih h.2]
    rfl

end Readers

/-! ### Values -/

theorem ofFloat_of_isFinite {x : Float} (h : x.isFinite) : ofFloat x = .number (.float x) :=
  if_pos h

/-- A finite number is read back. -/
theorem readFloat_ofFloat {x : Float} (h : x.isFinite) : readFloat (ofFloat x) = .ok x := by
  rw [ofFloat_of_isFinite h]
  rfl

theorem readFloat?_ofFloat? {x? : Option Float} (h : IsFinite? x?) :
    readFloat? (ofFloat? x?) = .ok x? := by
  cases x? with
  | none => rfl
  | some x =>
    rw [ofFloat?, ofFloat_of_isFinite (h x rfl)]
    rfl

/-- A literal is read back, a flag as a flag and a number as a number. -/
theorem readLiteral_describe {value : Literal} (h : value.IsFinite) :
    readLiteral value.describe = .ok value := by
  cases value with
  | bool b => rfl
  | number x =>
    rw [Literal.describe, ofFloat_of_isFinite (h x rfl)]
    rfl

/-- Each kind of constraint is told by its own name. -/
theorem readKind_name (kind : ConstraintKind) : readKind (.string kind.name) = .ok kind := by
  cases kind <;> rfl

/-! ### Fields -/

/-- A constant is read back if its value is finite. -/
theorem readConstant_describe {c : Constant} (h : c.value.IsFinite) :
    readConstant c.describe = .ok c := by
  simp [readConstant, Constant.describe, readLiteral_describe h]

/-- A variable is read back with its bounds and its shape. -/
theorem readVariable_describe {v : Variable} (h : v.FiniteData) :
    readVariable v.describe = .ok v := by
  obtain ⟨name, symbol, shape, lower?, upper?, initial?⟩ := v
  have hlower := readFloat?_ofFloat? h.lower
  have hupper := readFloat?_ofFloat? h.upper
  have hinitial := readFloat?_ofFloat? h.initial
  cases shape with
  | scalar =>
    simp [readVariable, readVariableDescription, VariableDescription.variable, Variable.describe,
      Shape.describe, Shape.ofDimensions?, hlower, hupper, hinitial]
  | vector length =>
    have hlength : readNat (ofNat length) = .ok length := rfl
    simp [readVariable, readVariableDescription, VariableDescription.variable, Variable.describe,
      Shape.describe, Shape.ofDimensions?, readAll, hlength, hlower, hupper, hinitial]

/-- A derived function is read back as far as its expression is. -/
theorem readFunction_describe (f : DerivedFunction) :
    readFunction f.describe = readExpr f.expr.toArrayForm >>= fun e ↦ .ok { f with expr := e } := by
  simp [readFunction, DerivedFunction.describe]

/-- A constraint is read back as far as its expression is. -/
theorem readConstraint_describe (c : Constraint) :
    readConstraint c.describe =
      readExpr c.expr.toArrayForm >>= fun e ↦ .ok { c with expr := e } := by
  simp [readConstraint, Constraint.describe, readKind_name]

/-- The description of an objective without an expression has no entry for it. -/
theorem readObjective_describe {f : Objective} (h : f.FiniteData) :
    readObjective f.describe =
      match f.expr? with
      | none => .ok f
      | some e => readExpr? e.toArrayForm >>= fun e? ↦ .ok { f with expr? := e? } := by
  obtain ⟨name, symbol, expr?, maximize, ideal?, nadir?⟩ := f
  have hideal := readFloat?_ofFloat? h.ideal
  have hnadir := readFloat?_ofFloat? h.nadir
  cases expr? <;> simp [readObjective, Objective.describe, hideal, hnadir]

/-! ### Stored samples -/

/-- Columns are read back, each with all its values. -/
theorem readEntries_map {columns : List (String × Array Float)} (h : FiniteColumns columns) :
    readEntries (columns.map fun column ↦ (column.1, .array (column.2.toList.map ofFloat))) =
      .ok columns := by
  induction columns with
  | nil => rfl
  | cons column columns ih =>
    rw [FiniteColumns, List.forall_mem_cons] at h
    have hcolumn : readAll readFloat (column.2.toList.map ofFloat) = .ok column.2.toList :=
      readAll_map fun x hx ↦ readFloat_ofFloat (h.1 x (Array.mem_toList_iff.mp hx))
    simp [readEntries, hcolumn, ih h.2]

/-- Entries that are put in after smaller ones stay in their order. -/
theorem put_of_forall_lt {α : Type} {entries : List (String × α)} {symbol : String} {value : α}
    (h : ∀ entry ∈ entries, entry.1 < symbol) :
    SortedMap.put symbol value entries = entries ++ [(symbol, value)] := by
  induction entries with
  | nil => rfl
  | cons entry entries ih =>
    rw [List.forall_mem_cons] at h
    have hnlt : ¬ symbol < entry.1 := fun hlt ↦
      String.lt_irrefl _ (String.lt_trans hlt h.1)
    have hne : symbol ≠ entry.1 := fun heq ↦ String.lt_irrefl _ (heq ▸ h.1)
    rw [SortedMap.put, if_neg hnlt, if_neg hne, ih h.2, List.cons_append]

/-- Entries that come in order and after those there are stay as they are when they are inserted. -/
theorem entries_foldl_insert {α : Type} {entries : List (String × α)} {m : SortedMap α}
    (h : (m.entries ++ entries).Pairwise fun a b ↦ a.1 < b.1) :
    (entries.foldl (fun m entry ↦ m.insert entry.1 entry.2) m).entries = m.entries ++ entries := by
  induction entries generalizing m with
  | nil => exact (List.append_nil _).symm
  | cons entry entries ih =>
    have hsmaller : ∀ earlier ∈ m.entries, earlier.1 < entry.1 := fun earlier hearlier ↦
      (List.pairwise_append.mp h).2.2 earlier hearlier entry List.mem_cons_self
    have hinsert : (m.insert entry.1 entry.2).entries = m.entries ++ [entry] :=
      put_of_forall_lt hsmaller
    rw [List.foldl_cons, ih (by rwa [hinsert, List.append_assoc, List.singleton_append]), hinsert,
      List.append_assoc, List.singleton_append]

/-- A map is that of its entries. -/
theorem ofList_entries {α : Type} (m : SortedMap α) : SortedMap.ofList m.entries = m := by
  have hentries : (SortedMap.ofList m.entries).entries = m.entries :=
    entries_foldl_insert (m := .empty) m.sorted
  rcases hlist : SortedMap.ofList m.entries with ⟨entries, hsorted⟩
  obtain ⟨entries', hsorted'⟩ := m
  rw [hlist] at hentries
  cases hentries
  rfl

/-- So a sorted map of columns is read back with the same entries in the same order. -/
theorem readColumns_ofColumns {columns : SortedMap (Array Float)}
    (h : FiniteColumns columns.entries) : readColumns (ofColumns columns) = .ok columns := by
  rw [ofColumns, readColumns, readEntries_map h]
  exact congrArg Except.ok (ofList_entries columns)

/-- Stored samples are put together again from their columns. -/
theorem ofColumns_columns (s : StoredSamples) :
    StoredSamples.ofColumns s.decisions s.values s.nonDominated = .ok s := by
  unfold StoredSamples.ofColumns
  split
  · next entry hfind =>
    have hmem := List.mem_of_find?_eq_some hfind
    have hsize := List.find?_some hfind
    simp [s.uniform entry hmem] at hsize
  · rfl

/-- Stored samples are read back if their numbers are finite. -/
theorem readSamples_describe {s : StoredSamples} (h : s.FiniteData) :
    readSamples s.describe = .ok s := by
  simp [readSamples, readSamplesDescription, SamplesDescription.samples, StoredSamples.describe,
    readColumns_ofColumns h.decisions, readColumns_ofColumns h.values, ofColumns_columns]

/-! ### Drafts -/

/-- Whatever becomes of the expressions, the rest of a description reads back. -/
theorem readDraft_describe {d : Draft} (h : d.FiniteData) :
    readDraft d.describe = do
      let constraints ← readAll readConstraint (d.constraints.map (·.describe))
      let extraFunctions ← readAll readFunction (d.extraFunctions.map (·.describe))
      let objectives ← readAll readObjective (d.objectives.map (·.describe))
      let scalarizations ← readAll readFunction (d.scalarizations.map (·.describe))
      return { d with extraFunctions, objectives, constraints, scalarizations } := by
  obtain ⟨name, about, constants, decisions, extraFunctions, objectives, constraints,
    scalarizations, samples?⟩ := d
  have hconstants := readAll_map fun c hc ↦ readConstant_describe (h.constants c hc)
  have hdecisions := readAll_map fun v hv ↦ readVariable_describe (h.decisions v hv)
  cases samples? with
  | none => simp [readDraft, Draft.describe, hconstants, hdecisions]
  | some s =>
    have hsamples : readSamples? s.describe = .ok (some s) := by
      rw [readSamples?]
      · rw [readSamples_describe (h.samples s rfl)]
        rfl
      · nofun
    simp [readDraft, Draft.describe, hconstants, hdecisions, hsamples]

/-! ### Expressions -/

/-- An expression is read from its source, and its errors become those of the description. -/
theorem readExpr_eq_ok_iff {j : Json} {e : Expr} :
    readExpr j = .ok e ↔ Expr.ofSource? j = .ok e := by
  unfold readExpr
  rcases Expr.ofSource? j with error | e' <;> simp

/-- An expression is read back from its array form if it is printable. -/
theorem readExpr_toArrayForm {e : Expr} (h : e.Printable) : readExpr e.toArrayForm = .ok e :=
  readExpr_eq_ok_iff.mpr <|
    (Expr.ofSource?_toArrayForm_eq_ok_iff h.identifiers).mpr ⟨h.takesArity, h.finiteNumbers, rfl⟩

theorem readExpr?_toArrayForm {e : Expr} (h : e.Printable) :
    readExpr? e.toArrayForm = .ok (some e) := by
  have hread := readExpr_toArrayForm h
  unfold readExpr?
  split
  · next hnull =>
    rw [hnull] at hread
    cases hread
  · rw [hread]
    rfl

/-- A draft with printable expressions reads back. -/
theorem readDraft_describe_of_everyExpr {d : Draft} (hdata : d.FiniteData)
    (hexpr : d.EveryExpr Expr.Printable) : readDraft d.describe = .ok d := by
  obtain ⟨hextra, hobjectives, hconstraints, hscalarizations⟩ := Draft.everyExpr_iff.mp hexpr
  have hfunction (f : DerivedFunction) (hf : f.expr.Printable) :
      readFunction f.describe = .ok f := by
    rw [readFunction_describe, readExpr_toArrayForm hf]
    rfl
  have hconstraint (c : Constraint) (hc : c ∈ d.constraints) :
      readConstraint c.describe = .ok c := by
    rw [readConstraint_describe, readExpr_toArrayForm (hconstraints c hc)]
    rfl
  have hobjective (f : Objective) (hf : f ∈ d.objectives) : readObjective f.describe = .ok f := by
    rw [readObjective_describe (hdata.objectives f hf)]
    split
    · rfl
    · next e he =>
      rw [readExpr?_toArrayForm (hobjectives f hf e he), ok_bind, ← he]
  rw [readDraft_describe hdata, readAll_map hconstraint,
    readAll_map fun f hf ↦ hfunction f (hextra f hf), readAll_map hobjective,
    readAll_map fun f hf ↦ hfunction f (hscalarizations f hf)]
  rfl

end Json

/-! ### Problems -/

namespace Problem

/-- Expressions of a problem mention identifiers only. -/
theorem everyExpr_identifiers (p : Problem) :
    p.draft.EveryExpr fun e ↦ ∀ symbol ∈ e.mentions, isIdentifier symbol := by
  intro field hfield e he symbol hsymbol
  obtain ⟨s, hs⟩ := Draft.exists_stage_of_expr? hfield he
  have hscope : symbol ∈ p.draft.known s.before := p.mem_scope_of_mem_mentions hs he hsymbol
  refine p.isIdentifier_of_mem_known_upTo (s := s) ?_
  rw [Draft.known_upTo]
  exact List.mem_append_left _ hscope

/-- The expressions of a problem are printable: the symbols they mention are in scope, and so they
are identifiers. -/
theorem everyExpr_printable {p : Problem} (hnumbers : p.draft.EveryExpr Expr.FiniteNumbers)
    (harity : p.draft.EveryExpr Expr.TakesArity) : p.draft.EveryExpr Expr.Printable :=
  fun field hfield e he ↦ ⟨harity field hfield e he, hnumbers field hfield e he,
    p.everyExpr_identifiers field hfield e he⟩

/-- A problem is loaded exactly from the descriptions of its draft. -/
theorem ofDescription?_eq_ok_iff {j : Json} {p : Problem} :
    ofDescription? j = .ok p ↔ j.readDraft = .ok p.draft := by
  unfold ofDescription?
  rcases j.readDraft with error | d
  · exact ⟨nofun, nofun⟩
  · rw [Except.ok.injEq]
    constructor
    · intro h
      dsimp only at h
      split at h
      · cases h
      · next q hq =>
        cases h
        exact (Draft.build_eq_ok_iff.mp hq).2.symm
    · rintro rfl
      have hbuild : p.draft.build = .ok p := Draft.build_eq_ok_iff.mpr ⟨p.sound, rfl⟩
      dsimp only
      rw [hbuild]

/-- A problem reads back from its description and is equal to what is read, if all its numbers are
finite and its operators have the arguments they take. -/
theorem reads_back_from_description (p : Problem) (hdata : p.draft.FiniteData)
    (hnumbers : p.draft.EveryExpr Expr.FiniteNumbers) (harity : p.draft.EveryExpr Expr.TakesArity) :
    ofDescription? p.describe = .ok p ∧ (p == p) = true := by
  refine ⟨?_, beq_self hdata hnumbers⟩
  rw [ofDescription?_eq_ok_iff]
  exact Json.readDraft_describe_of_everyExpr hdata (everyExpr_printable hnumbers harity)

/-- Samples of a scalar variable with the values of an objective. -/
def twoSamples : StoredSamples :=
  ⟨⟨[("x", #[0, 1])], List.pairwise_singleton _ _⟩, ⟨[("f", #[2, 3])], List.pairwise_singleton _ _⟩,
    true, by simp [rowCount]⟩

/-- A draft with a truth value, a vector, an extra function that is a symbol and an objective that
is only known from samples. -/
def storedDraft : Draft :=
  { Draft.empty "stored" with
    constants := [⟨"flag", "b", .bool true⟩]
    decisions := [⟨"x", "x", .scalar, some 0, none, some 1⟩,
      ⟨"v", "v", .vector 2, none, none, none⟩]
    extraFunctions := [⟨"e", "e", .symbol "x"⟩]
    objectives := [⟨"f", "f", none, true, some 1, none⟩]
    constraints := [⟨"g", "g", .negate (.symbol "f_min"), .equal⟩]
    samples? := some twoSamples }

/-- The problem of the draft. -/
def storedProblem : Problem := ⟨storedDraft, by decide +kernel⟩

/-- All conditions hold for this problem, and it is read back. -/
theorem storedProblem_reads_back :
    storedProblem.draft.FiniteData ∧ storedProblem.draft.EveryExpr Expr.FiniteNumbers ∧
      storedProblem.draft.EveryExpr Expr.TakesArity ∧
      ofDescription? storedProblem.describe = .ok storedProblem ∧
      (storedProblem == storedProblem) = true := by
  have hdata : storedProblem.draft.FiniteData := by decide +kernel
  have hexpr : storedProblem.draft.EveryExpr Expr.Printable := by
    simp only [Draft.everyExpr_iff, storedProblem, storedDraft, Draft.empty,
      List.forall_mem_singleton, List.not_mem_nil, false_implies, implies_true, and_true, true_and,
      reduceCtorEq, Option.mem_def, Expr.negate, Expr.printable_operation]
    exact ⟨Expr.printable_symbol rfl, rfl, Expr.printable_symbol rfl⟩
  have hnumbers : storedProblem.draft.EveryExpr Expr.FiniteNumbers :=
    fun field hfield e he ↦ (hexpr field hfield e he).finiteNumbers
  have harity : storedProblem.draft.EveryExpr Expr.TakesArity :=
    fun field hfield e he ↦ (hexpr field hfield e he).takesArity
  obtain ⟨hread, heq⟩ := storedProblem.reads_back_from_description hdata hnumbers harity
  exact ⟨hdata, hnumbers, harity, hread, heq⟩

end Problem

end Tradeoff
