import Tradeoff.Problem.Description.Read
import Tradeoff.Proofs.Expr.ArrayForm
import Tradeoff.Proofs.Problem.Finite

/-!
# What is loaded

What the readers of the parts of a description ensure, the reader of the whole ensures of all parts
(`Json.readDraft_reads`). So in every expression that is loaded operators have the arguments they
take (`Json.readDraft_takesArity`), and from a description in which all numbers are finite only
finite data is read (`Json.readDraft_ensures`). This is not so of expressions, because a description
has them as formulas too, and a numeral of a formula may be too large. But this is the only way to
an expression with a number that is not finite (`Expr.Loaded`).
-/

namespace Tradeoff

/-! ### Numbers of a description -/

/-- All numbers in the value are finite. -/
inductive Json.FiniteNumbers : Json → Prop where
  /-- Null. -/
  | null : FiniteNumbers .null
  /-- A truth value. -/
  | bool (value : Bool) : FiniteNumbers (.bool value)
  /-- A number that is finite. -/
  | number {n : JsonNumber} : n.toFloat.isFinite → FiniteNumbers (.number n)
  /-- A string, whatever is written in it. -/
  | string (value : String) : FiniteNumbers (.string value)
  /-- An array of such values. -/
  | array {items : List Json} : (∀ item ∈ items, FiniteNumbers item) → FiniteNumbers (.array items)
  /-- An object of such values. -/
  | object {fields : List (String × Json)} : (∀ field ∈ fields, FiniteNumbers field.2) →
      FiniteNumbers (.object fields)

namespace Json

attribute [simp] FiniteNumbers.null FiniteNumbers.bool FiniteNumbers.string

@[simp] theorem finiteNumbers_number_iff {n : JsonNumber} :
    (number n).FiniteNumbers ↔ n.toFloat.isFinite := by
  refine ⟨fun h ↦ ?_, .number⟩
  cases h with
  | number hn => exact hn

@[simp] theorem finiteNumbers_array_iff {items : List Json} :
    (array items).FiniteNumbers ↔ ∀ item ∈ items, item.FiniteNumbers := by
  refine ⟨fun h ↦ ?_, .array⟩
  cases h with
  | array hitems => exact hitems

@[simp] theorem finiteNumbers_object_iff {fields : List (String × Json)} :
    (object fields).FiniteNumbers ↔ ∀ field ∈ fields, field.2.FiniteNumbers := by
  refine ⟨fun h ↦ ?_, .object⟩
  cases h with
  | object hfields => exact hfields

end Json

/-! ### Expressions -/

mutual

/-- An array form with finite numbers is that of an expression with finite numbers. By induction on
the value. -/
theorem finiteNumbers_of_ofArrayForm? {e : Expr} :
    ∀ j : Json, j.FiniteNumbers → Expr.ofArrayForm? j = .ok e → e.FiniteNumbers
  | .number n, hj, h => by
    cases h
    exact Expr.finiteNumbers_number.mpr (Json.finiteNumbers_number_iff.mp hj)
  | .bool b, _, h => by
    cases h
    exact Expr.finiteNumbers_bool b
  | .string name, _, h => by
    cases h
    exact Expr.finiteNumbers_symbol name
  | .array (.string name :: items), hj, h => by
    have hitems := (List.forall_mem_cons.mp (Json.finiteNumbers_array_iff.mp hj)).2
    rw [Expr.ofArrayForm?] at h
    split at h
    · cases h
    · next args hargs =>
      exact (called_iff.mpr h).finiteNumbers_iff.mpr
        (finiteNumbers_of_ofArrayForms? items hitems hargs)
  | .array [], _, h | .array (.null :: _), _, h | .array (.bool _ :: _), _, h
  | .array (.number _ :: _), _, h | .array (.array _ :: _), _, h
  | .array (.object _ :: _), _, h | .null, _, h | .object _, _, h => by cases h

/-- From array forms with finite numbers come expressions with finite numbers. -/
theorem finiteNumbers_of_ofArrayForms? {args : List Expr} :
    ∀ items : List Json, (∀ item ∈ items, item.FiniteNumbers) →
      Expr.ofArrayForms? items = .ok args → ∀ arg ∈ args, arg.FiniteNumbers
  | [], _, h => by
    cases h
    exact nofun
  | item :: items, hitems, h => by
    rw [List.forall_mem_cons] at hitems
    rw [Expr.ofArrayForms?] at h
    split at h
    · cases h
    · next arg harg =>
      split at h
      · cases h
      · next rest hrest =>
        cases h
        exact List.forall_mem_cons.mpr ⟨finiteNumbers_of_ofArrayForm? item hitems.1 harg,
          finiteNumbers_of_ofArrayForms? items hitems.2 hrest⟩

end

/-- What is known of an expression that was read: operators have the arguments they take, and
numbers are finite unless it is a formula with a numeral that is not. -/
structure Expr.Loaded (e : Expr) : Prop where
  /-- Operators have the arguments they take. -/
  takesArity : e.TakesArity
  /-- The numbers are finite, or a numeral is not. -/
  finite_or_formula : e.FiniteNumbers ∨ ∃ formula lexemes, scan formula = .ok lexemes ∧
    parse formula = .ok e ∧ ¬ FiniteNumerals (tokens lexemes)

/-- What is parsed may have been loaded from a formula. -/
theorem Expr.loaded_of_parse {formula : String} {e : Expr} (h : parse formula = .ok e) :
    e.Loaded := by
  refine ⟨takesArity_of_parse h, ?_⟩
  rcases hscan : scan formula with error | lexemes
  · rw [parse, parseWithin, hscan] at h
    cases h
  · by_cases hfinite : e.FiniteNumbers
    · exact .inl hfinite
    · exact .inr ⟨formula, lexemes, hscan, h, mt (finiteNumbers_iff_of_parse hscan h).mpr hfinite⟩

/-- An expression is a formula or has an array form. -/
theorem Expr.ofSource?_cases {j : Json} {e : Expr} (h : ofSource? j = .ok e) :
    (∃ formula, parse formula = .ok e) ∨ ofArrayForm? j = .ok e := by
  by_cases hformula : ∃ formula, j = .string formula
  · obtain ⟨formula, rfl⟩ := hformula
    rw [ofSource?] at h
    split at h
    · cases h
    · next e' hparse =>
      cases h
      exact .inl ⟨formula, hparse⟩
  · exact .inr ((ofSource?_eq_ok_iff fun s hs ↦ hformula ⟨s, hs⟩).mp h)

/-- From either form comes an expression whose operators have the arguments they take: the parser
counts them, and so does the reader of array forms. -/
theorem Expr.takesArity_of_ofSource? {j : Json} {e : Expr} (h : ofSource? j = .ok e) :
    e.TakesArity := by
  rcases ofSource?_cases h with ⟨formula, hparse⟩ | harray
  · exact takesArity_of_parse hparse
  · exact takesArity_of_ofArrayForm? j harray

/-- From a source with finite numbers comes an expression that is written in array form with finite
numbers, or parsed. -/
theorem Expr.loaded_of_ofSource? {j : Json} (hj : j.FiniteNumbers) {e : Expr}
    (h : ofSource? j = .ok e) : e.Loaded := by
  rcases ofSource?_cases h with ⟨formula, hparse⟩ | harray
  · exact loaded_of_parse hparse
  · exact ⟨takesArity_of_ofArrayForm? j harray, .inl (finiteNumbers_of_ofArrayForm? j hj harray)⟩

/-! ### Readers -/

/-- Whatever is read has the property. -/
def Reading.Ensures {α : Type} (r : Reading α) (P : α → Prop) : Prop := ∀ a, r = .ok a → P a

namespace Reading.Ensures

variable {α β : Type} {r : Reading α} {P Q : α → Prop} {R : β → Prop}

theorem ok {a : α} (h : P a) : Reading.Ensures (.ok a) P := by
  rintro _ ⟨⟩
  exact h

theorem error {e : DescriptionError} : Reading.Ensures (.error e) P := nofun

/-- What is read first is used to read on. -/
theorem bind {next : α → Reading β} (h : r.Ensures P) (hnext : ∀ a, P a → (next a).Ensures R) :
    Reading.Ensures (r >>= next) R := by
  intro b hb
  rcases r with e | a
  · cases hb
  · exact hnext a (h a rfl) b hb

/-- Nothing is needed of what is read first. -/
theorem skip {next : α → Reading β} (hnext : ∀ a, (next a).Ensures R) :
    Reading.Ensures (r >>= next) R :=
  bind (P := fun _ ↦ True) (fun _ _ ↦ trivial) fun a _ ↦ hnext a

end Reading.Ensures

namespace Json

open Reading

/-- The values in an array or an object of the class are of the class. -/
structure Inherited (H : Json → Prop) : Prop where
  item : ∀ {items : List Json}, H (.array items) → ∀ item ∈ items, H item
  field : ∀ {fields : List (String × Json)}, H (.object fields) → ∀ field ∈ fields, H field.2

theorem inherited_finiteNumbers : Inherited FiniteNumbers where
  item := finiteNumbers_array_iff.mp
  field := finiteNumbers_object_iff.mp

theorem inherited_true : Inherited fun _ ↦ True where
  item _ _ _ := trivial
  field _ _ _ := trivial

variable {α : Type} {H : Json → Prop} {P : α → Prop} {read : Json → Reading α}

/-- The reader has the property for all values of a class. -/
def Reads (H : Json → Prop) (read : Json → Reading α) (P : α → Prop) : Prop :=
  ∀ j : Json, H j → (read j).Ensures P

theorem reads_true : Reads H read fun _ ↦ True := fun _ _ _ _ ↦ trivial

/-- Numbers are read from numbers, so they are as finite as these. -/
theorem readFloat_ensures : Reads FiniteNumbers readFloat (·.isFinite) := by
  intro j hj
  cases hj with
  | number hn => exact .ok hn
  | _ => exact .error

theorem readFloat?_ensures : Reads FiniteNumbers readFloat? IsFinite? := by
  intro j hj
  cases hj with
  | null => exact .ok fun _ ↦ nofun
  | number hn =>
    refine .ok fun x hx ↦ ?_
    cases hx
    exact hn
  | _ => exact .error

/-- Flags have no numbers in them. -/
theorem readLiteral_ensures : Reads FiniteNumbers readLiteral Literal.IsFinite := by
  intro j hj
  cases hj with
  | number hn =>
    refine .ok fun x hx ↦ ?_
    cases hx
    exact hn
  | bool => exact .ok fun _ ↦ nofun
  | _ => exact .error

/-- What holds of the expressions of all sources holds of what is read. -/
theorem readExpr_reads {P : Expr → Prop} (h : ∀ j e, H j → Expr.ofSource? j = .ok e → P e) :
    Reads H readExpr P := by
  intro j hj e he
  unfold readExpr at he
  split at he
  · cases he
  · next e' hsource =>
    cases he
    exact h j e hj hsource

theorem readExpr?_reads {P : Expr → Prop} (h : Reads H readExpr P) :
    Reads H readExpr? fun e? ↦ ∀ e ∈ e?, P e := by
  intro j hj
  unfold readExpr?
  split
  · exact .ok fun _ ↦ nofun
  · refine (h j hj).bind fun e he ↦ .ok fun e' he' ↦ ?_
    cases he'
    exact he

/-! ### Lists and fields -/

/-- What is ensured for each item is ensured for the list. -/
theorem readAll_ensures {items : List Json} (h : ∀ item ∈ items, (read item).Ensures P) :
    (readAll read items).Ensures fun values ↦ ∀ value ∈ values, P value := by
  induction items with
  | nil => exact .ok nofun
  | cons item items ih =>
    rw [List.forall_mem_cons] at h
    rw [readAll]
    refine h.1.bind fun value hvalue ↦ (ih h.2).bind fun values hvalues ↦ .ok ?_
    exact List.forall_mem_cons.mpr ⟨hvalue, hvalues⟩

/-- A list is read from items, which inherit the property of the list. -/
theorem readList_reads (hH : Inherited H) (h : Reads H read P) :
    Reads H (readList read) fun values ↦ ∀ value ∈ values, P value := by
  intro j hj
  cases j with
  | array items => exact readAll_ensures fun item hitem ↦ h item (hH.item hj item hitem)
  | _ => exact .error

/-- Entries have a column each, all with finite numbers. -/
theorem readEntries_ensures {fields : List (String × Json)}
    (h : ∀ field ∈ fields, field.2.FiniteNumbers) :
    (readEntries fields).Ensures FiniteColumns := by
  induction fields with
  | nil => exact .ok nofun
  | cons field fields ih =>
    rw [List.forall_mem_cons] at h
    rw [readEntries]
    have hlist := readList_reads inherited_finiteNumbers readFloat_ensures
    refine (hlist field.2 h.1).bind fun column hcolumn ↦ (ih h.2).bind fun entries hentries ↦ .ok ?_
    refine List.forall_mem_cons.mpr ⟨fun x hx ↦ hcolumn x ?_, hentries⟩
    exact List.mem_toArray.mp hx

/-- Inserting entries one by one adds no others. -/
theorem mem_of_mem_foldl_insert {entries : List (String × α)} {m : SortedMap α}
    {entry : String × α}
    (h : entry ∈ (entries.foldl (fun m entry ↦ m.insert entry.1 entry.2) m).entries) :
    entry ∈ entries ∨ entry ∈ m.entries := by
  induction entries generalizing m with
  | nil => exact .inr h
  | cons first entries ih =>
    rcases ih h with hmem | hmem
    · exact .inl (List.mem_cons_of_mem _ hmem)
    · rcases SortedMap.mem_put hmem with rfl | hmem
      · exact .inl List.mem_cons_self
      · exact .inr hmem

/-- A map has no entries but those it is made of. -/
theorem mem_of_mem_ofList {entries : List (String × α)} {entry : String × α}
    (h : entry ∈ (SortedMap.ofList entries).entries) : entry ∈ entries :=
  (mem_of_mem_foldl_insert h).resolve_right List.not_mem_nil

theorem readColumns_ensures : Reads FiniteNumbers readColumns fun m ↦ FiniteColumns m.entries := by
  intro j hj
  cases hj with
  | object hfields =>
    exact (readEntries_ensures hfields).bind fun entries hentries ↦
      .ok fun column hcolumn ↦ hentries column (mem_of_mem_ofList hcolumn)
  | _ => exact .error

/-- What is looked up is among the fields. -/
theorem mem_of_lookup_eq_some {fields : List (String × α)} {key : String} {value : α}
    (h : fields.lookup key = some value) : (key, value) ∈ fields := by
  induction fields with
  | nil => cases h
  | cons field fields ih =>
    rw [lookup_cons] at h
    split at h
    · next heq =>
      cases h
      exact List.mem_cons.mpr (.inl (Prod.ext heq rfl))
    · exact List.mem_cons_of_mem _ (ih h)

/-- The value of a field is read from one of the given fields, unless it is absent. -/
theorem readField?_ensures {fields : List (String × Json)}
    (hfields : ∀ field ∈ fields, H field.2) (h : Reads H read P) (key : String) :
    (readField? fields key read).Ensures fun value? ↦ ∀ value ∈ value?, P value := by
  unfold readField?
  split
  · exact .ok fun _ ↦ nofun
  · next value hvalue =>
    refine (h value (hfields _ (mem_of_lookup_eq_some hvalue))).bind fun a ha ↦ .ok fun a' ha' ↦ ?_
    cases ha'
    exact ha

/-- A required value is there, or there is an error. -/
theorem require_ensures {value? : Option α} (h : ∀ value ∈ value?, P value) (key : String) :
    (require key value?).Ensures P := by
  cases value? with
  | none => exact .error
  | some value => exact .ok (h value rfl)

/-- If a list may be absent, the items are those of the list that is there. -/
theorem forall_mem_getD {values? : Option (List α)}
    (h : ∀ values ∈ values?, ∀ value ∈ values, P value) : ∀ value ∈ values?.getD [], P value := by
  cases values? with
  | none => exact nofun
  | some values => exact h values rfl

/-- A value may be absent or null. -/
theorem forall_mem_join {value?? : Option (Option α)}
    (h : ∀ value? ∈ value??, ∀ value ∈ value?, P value) : ∀ value ∈ value??.join, P value := by
  cases value?? with
  | none => exact fun _ ↦ nofun
  | some value? => exact h value? rfl

/-! ### Items and parts -/

/-- What is read from the front of items of the class has the property, and the others are of the
class. -/
def ReadsItems (H : Json → Prop) (read : ItemReader α) (P : α → Prop) : Prop :=
  ∀ items : List Json, (∀ item ∈ items, H item) →
    (read items).Ensures fun result ↦ P result.1 ∧ ∀ item ∈ result.2, H item

namespace ReadsItems

variable {β : Type} {first : ItemReader α} {Q : β → Prop}

theorem pure {a : α} (h : P a) : ReadsItems H (pure a) P := fun _ hitems ↦ .ok ⟨h, hitems⟩

/-- A property of items survives reading one after the other. -/
theorem bind {next : α → ItemReader β} (h : ReadsItems H first P)
    (hnext : ∀ a, P a → ReadsItems H (next a) Q) : ReadsItems H (first >>= next) Q :=
  fun items hitems ↦ (h items hitems).bind fun result hresult ↦
    hnext result.1 hresult.1 result.2 hresult.2

/-- The next item is one of the items. -/
theorem item (h : Reads H read P) : ReadsItems H (item read) P := by
  intro items hitems
  cases items with
  | nil => exact .error
  | cons first items =>
    rw [List.forall_mem_cons] at hitems
    exact (h first hitems.1).bind fun a ha ↦ .ok ⟨ha, hitems.2⟩

/-- If there are no more items, there is the default. -/
theorem itemOr {default : α} (hdefault : P default) (h : Reads H read P) :
    ReadsItems H (itemOr default read) P := by
  intro items hitems
  cases items with
  | nil => exact .ok ⟨hdefault, nofun⟩
  | cons first items => exact item h (first :: items) hitems

end ReadsItems

/-- What is ensured of fields and of items is so of what is read from either. -/
theorem readParts_reads (hH : Inherited H) {ofFields : List (String × Json) → Reading α}
    {ofItems : ItemReader α}
    (hfields : ∀ fields, (∀ field ∈ fields, H field.2) → (ofFields fields).Ensures P)
    (hitems : ReadsItems H ofItems P) : Reads H (readParts ofFields ofItems) P := by
  intro j hj
  cases j with
  | object fields => exact hfields fields (hH.field hj)
  | array items =>
    refine (hitems items (hH.item hj)).bind fun result hresult ↦ ?_
    dsimp only
    split
    · exact .ok hresult.1
    · exact .error
  | _ => exact .error

/-! ### Fields of a problem -/

/-- A constant has a literal, which is finite. -/
theorem readConstant_ensures : Reads FiniteNumbers readConstant fun c ↦ c.value.IsFinite := by
  refine readParts_reads inherited_finiteNumbers (fun fields hfields ↦ ?_) ?_
  · refine .skip fun _ ↦ .skip fun _ ↦
      (readField?_ensures hfields readLiteral_ensures "value").bind fun value? hvalue ↦
      .skip fun _ ↦ .skip fun _ ↦ (require_ensures hvalue "value").bind fun value hvalue ↦ ?_
    exact .ok hvalue
  · refine .bind (.item reads_true) fun _ _ ↦ .bind (.item reads_true) fun _ _ ↦
      .bind (.item readLiteral_ensures) fun value hvalue ↦ ?_
    exact .pure hvalue

/-- The numbers in the description of a variable are finite. -/
theorem readVariableDescription_ensures :
    Reads FiniteNumbers readVariableDescription fun v ↦
      IsFinite? v.lower? ∧ IsFinite? v.upper? ∧ IsFinite? v.initial? := by
  have hnone : IsFinite? none := fun _ ↦ nofun
  refine readParts_reads inherited_finiteNumbers (fun fields hfields ↦ ?_) ?_
  · refine (readField?_ensures hfields readFloat?_ensures "initial_value").bind
      fun initial? hinitial ↦
      (readField?_ensures hfields readFloat?_ensures "lowerbound").bind fun lower? hlower ↦
      .skip fun _ ↦ .skip fun _ ↦ .skip fun _ ↦
      (readField?_ensures hfields readFloat?_ensures "upperbound").bind fun upper? hupper ↦
      .skip fun _ ↦ .skip fun _ ↦ ?_
    exact .ok ⟨forall_mem_join hlower, forall_mem_join hupper, forall_mem_join hinitial⟩
  · refine .bind (.item reads_true) fun _ _ ↦ .bind (.item reads_true) fun _ _ ↦
      .bind (.itemOr trivial reads_true) fun _ _ ↦
      .bind (.itemOr hnone readFloat?_ensures) fun lower? hlower ↦
      .bind (.itemOr hnone readFloat?_ensures) fun upper? hupper ↦
      .bind (.itemOr hnone readFloat?_ensures) fun initial? hinitial ↦ ?_
    exact .pure ⟨hlower, hupper, hinitial⟩

/-- A variable has the numbers of its description. -/
theorem readVariable_ensures : Reads FiniteNumbers readVariable Variable.FiniteData := by
  intro j hj
  refine (readVariableDescription_ensures j hj).bind fun v ⟨hlower, hupper, hinitial⟩ ↦ ?_
  unfold VariableDescription.variable
  split
  · exact .error
  · exact .ok ⟨hlower, hupper, hinitial⟩

/-- A derived function has the expression that is read. -/
theorem readFunction_reads (hH : Inherited H) {P : Expr → Prop} (h : Reads H readExpr P) :
    Reads H readFunction fun f ↦ P f.expr := by
  refine readParts_reads hH (fun fields hfields ↦ ?_) ?_
  · refine (readField?_ensures hfields h "func").bind fun expr? hexpr ↦
      .skip fun _ ↦ .skip fun _ ↦ .skip fun _ ↦ .skip fun _ ↦
      (require_ensures hexpr "func").bind fun e he ↦ ?_
    exact .ok he
  · refine .bind (.item reads_true) fun _ _ ↦ .bind (.item reads_true) fun _ _ ↦
      .bind (.item h) fun e he ↦ ?_
    exact .pure he

/-- An objective has numbers and maybe an expression. -/
theorem readObjective_reads (hH : Inherited H) {P : Expr → Prop} {Q : Float → Prop}
    (h : Reads H readExpr P) (hfloat : Reads H readFloat? fun x? ↦ ∀ x ∈ x?, Q x) :
    Reads H readObjective fun f ↦
      (∀ x ∈ f.ideal?, Q x) ∧ (∀ x ∈ f.nadir?, Q x) ∧ ∀ e ∈ f.expr?, P e := by
  refine readParts_reads hH (fun fields hfields ↦ ?_) ?_
  · refine (readField?_ensures hfields (readExpr?_reads h) "func").bind fun expr? hexpr ↦
      (readField?_ensures hfields hfloat "ideal").bind fun ideal? hideal ↦
      .skip fun _ ↦
      (readField?_ensures hfields hfloat "nadir").bind fun nadir? hnadir ↦
      .skip fun _ ↦ .skip fun _ ↦ .skip fun _ ↦ .skip fun _ ↦ ?_
    exact .ok ⟨forall_mem_join hideal, forall_mem_join hnadir, forall_mem_join hexpr⟩
  · refine .bind (.item reads_true) fun _ _ ↦ .bind (.item reads_true) fun _ _ ↦
      .bind (.itemOr (fun _ ↦ nofun) (readExpr?_reads h)) fun expr? hexpr ↦
      .bind (.itemOr trivial reads_true) fun _ _ ↦
      .bind (.itemOr (fun _ ↦ nofun) hfloat) fun ideal? hideal ↦
      .bind (.itemOr (fun _ ↦ nofun) hfloat) fun nadir? hnadir ↦ ?_
    exact .pure ⟨hideal, hnadir, hexpr⟩

/-- A constraint has the expression that is read. -/
theorem readConstraint_reads (hH : Inherited H) {P : Expr → Prop} (h : Reads H readExpr P) :
    Reads H readConstraint fun c ↦ P c.expr := by
  refine readParts_reads hH (fun fields hfields ↦ ?_) ?_
  · refine (readField?_ensures hfields h "func").bind fun expr? hexpr ↦
      .skip fun _ ↦ .skip fun _ ↦ .skip fun _ ↦ .skip fun _ ↦ .skip fun _ ↦
      (require_ensures hexpr "func").bind fun e he ↦ ?_
    exact .ok he
  · refine .bind (.item reads_true) fun _ _ ↦ .bind (.item reads_true) fun _ _ ↦
      .bind (.item h) fun e he ↦ .bind (.itemOr trivial reads_true) fun _ _ ↦ ?_
    exact .pure he

/-- The columns in the description of stored samples are finite. -/
theorem readSamplesDescription_ensures :
    Reads FiniteNumbers readSamplesDescription fun s ↦
      FiniteColumns s.decisions.entries ∧ FiniteColumns s.values.entries := by
  refine readParts_reads inherited_finiteNumbers (fun fields hfields ↦ ?_) ?_
  · refine .skip fun _ ↦
      (readField?_ensures hfields readColumns_ensures "objective_values").bind
        fun values? hvalues ↦
      (readField?_ensures hfields readColumns_ensures "variable_values").bind
        fun decisions? hdecisions ↦
      (require_ensures hdecisions "variable_values").bind fun decisions hdecisions ↦
      (require_ensures hvalues "objective_values").bind fun values hvalues ↦ ?_
    exact .ok ⟨hdecisions, hvalues⟩
  · refine .bind (.item readColumns_ensures) fun decisions hdecisions ↦
      .bind (.item readColumns_ensures) fun values hvalues ↦
      .bind (.itemOr trivial reads_true) fun _ _ ↦ ?_
    exact .pure ⟨hdecisions, hvalues⟩

/-- Putting stored samples together adds no numbers. -/
theorem readSamples_ensures : Reads FiniteNumbers readSamples StoredSamples.FiniteData := by
  intro j hj
  refine (readSamplesDescription_ensures j hj).bind fun s ⟨hdecisions, hvalues⟩ ↦ ?_
  unfold SamplesDescription.samples
  split
  · exact .error
  · next samples hsamples =>
    refine .ok ?_
    unfold StoredSamples.ofColumns at hsamples
    split at hsamples
    · cases hsamples
    · cases hsamples
      exact ⟨hdecisions, hvalues⟩

/-- A problem need not have stored samples. -/
theorem readSamples?_reads {P : StoredSamples → Prop} (h : Reads H readSamples P) :
    Reads H readSamples? fun s? ↦ ∀ s ∈ s?, P s := by
  intro j hj
  unfold readSamples?
  split
  · exact .ok fun _ ↦ nofun
  · refine (h j hj).bind fun s hs ↦ .ok fun s' hs' ↦ ?_
    cases hs'
    exact hs

/-! ### Descriptions -/

/-- What is ensured of the fields when each is read is so of all fields of a draft. -/
theorem readDraft_reads (hH : Inherited H) {C : Constant → Prop} {V : Variable → Prop}
    {P : Expr → Prop} {F : Objective → Prop} {S : StoredSamples → Prop}
    (hconstant : Reads H readConstant C) (hvariable : Reads H readVariable V)
    (hexpr : Reads H readExpr P) (hobjective : Reads H readObjective F)
    (hsamples : Reads H readSamples S) :
    Reads H readDraft fun d ↦ (∀ c ∈ d.constants, C c) ∧ (∀ v ∈ d.decisions, V v) ∧
      (∀ f ∈ d.extraFunctions, P f.expr) ∧ (∀ f ∈ d.objectives, F f) ∧
      (∀ c ∈ d.constraints, P c.expr) ∧ (∀ f ∈ d.scalarizations, P f.expr) ∧
      ∀ s ∈ d.samples?, S s := by
  have hfunction := readFunction_reads hH hexpr
  have hconstraint := readConstraint_reads hH hexpr
  refine readParts_reads hH (fun fields hfields ↦ ?_) ?_
  · refine (readField?_ensures hfields (readList_reads hH hconstant) "constants").bind
        fun constants? hconstants ↦
      (readField?_ensures hfields (readList_reads hH hconstraint) "constraints").bind
        fun constraints? hconstraints ↦
      .skip fun _ ↦
      (readField?_ensures hfields (readSamples?_reads hsamples) "discrete_representation").bind
        fun samples? hsamples ↦
      (readField?_ensures hfields (readList_reads hH hfunction) "extra_funcs").bind
        fun extraFunctions? hextra ↦
      .skip fun _ ↦
      (readField?_ensures hfields (readList_reads hH hobjective) "objectives").bind
        fun objectives? hobjectives ↦
      (readField?_ensures hfields (readList_reads hH hfunction) "scalarization_funcs").bind
        fun scalarizations? hscalarizations ↦
      (readField?_ensures hfields (readList_reads hH hvariable) "variables").bind
        fun decisions? hdecisions ↦ ?_
    exact .ok ⟨forall_mem_getD hconstants, forall_mem_getD hdecisions, forall_mem_getD hextra,
      forall_mem_getD hobjectives, forall_mem_getD hconstraints, forall_mem_getD hscalarizations,
      forall_mem_join hsamples⟩
  · refine .bind (.itemOr trivial reads_true) fun _ _ ↦
      .bind (.itemOr trivial reads_true) fun _ _ ↦
      .bind (.itemOr nofun (readList_reads hH hconstant)) fun constants hconstants ↦
      .bind (.itemOr nofun (readList_reads hH hvariable)) fun decisions hdecisions ↦
      .bind (.itemOr nofun (readList_reads hH hfunction)) fun extraFunctions hextra ↦
      .bind (.itemOr nofun (readList_reads hH hobjective)) fun objectives hobjectives ↦
      .bind (.itemOr nofun (readList_reads hH hconstraint)) fun constraints hconstraints ↦
      .bind (.itemOr nofun (readList_reads hH hfunction)) fun scalarizations hscalarizations ↦
      .bind (.itemOr (fun _ ↦ nofun) (readSamples?_reads hsamples)) fun samples? hsamples ↦ ?_
    exact .pure ⟨hconstants, hdecisions, hextra, hobjectives, hconstraints, hscalarizations,
      hsamples⟩

/-- What is read from a description with finite numbers has finite data, and as for its expressions,
they have finite numbers unless they are formulas. -/
theorem readDraft_ensures :
    Reads FiniteNumbers readDraft fun d ↦ d.FiniteData ∧ d.EveryExpr Expr.Loaded := by
  have hexpr : Reads FiniteNumbers readExpr Expr.Loaded :=
    readExpr_reads fun j e hj ↦ Expr.loaded_of_ofSource? hj
  have hobjective := readObjective_reads inherited_finiteNumbers hexpr readFloat?_ensures
  intro j hj d hd
  obtain ⟨hconstants, hdecisions, hextra, hobjectives, hconstraints, hscalarizations, hsamples⟩ :=
    readDraft_reads inherited_finiteNumbers readConstant_ensures readVariable_ensures hexpr
      hobjective readSamples_ensures j hj d hd
  have hdata : ∀ f ∈ d.objectives, f.FiniteData := fun f hf ↦
    ⟨(hobjectives f hf).1, (hobjectives f hf).2.1⟩
  exact ⟨⟨hconstants, hdecisions, hdata, hsamples⟩, Draft.everyExpr_iff.mpr
    ⟨hextra, fun f hf ↦ (hobjectives f hf).2.2, hconstraints, hscalarizations⟩⟩

/-- In what is read from any description, operators have the arguments they take. -/
theorem readDraft_takesArity {j : Json} {d : Draft} (h : j.readDraft = .ok d) :
    d.EveryExpr Expr.TakesArity := by
  have hexpr : Reads (fun _ ↦ True) readExpr Expr.TakesArity :=
    readExpr_reads fun _ _ _ ↦ Expr.takesArity_of_ofSource?
  have hobjective := readObjective_reads inherited_true (Q := fun _ ↦ True) hexpr
    fun _ _ _ _ _ _ ↦ trivial
  obtain ⟨-, -, hextra, hobjectives, hconstraints, hscalarizations, -⟩ :=
    readDraft_reads inherited_true reads_true reads_true hexpr hobjective reads_true j trivial d h
  exact Draft.everyExpr_iff.mpr
    ⟨hextra, fun f hf ↦ (hobjectives f hf).2.2, hconstraints, hscalarizations⟩

end Json

end Tradeoff
