import Tradeoff.Proofs.Problem.Loading

/-!
# Which values are array forms

A value is read as an expression exactly if it is built as array forms are, up to the case of the
names of operators (`Json.IsArrayForm`). The expression then has the value for its array form, with
the names as operators have them and the numbers as doubles (`Json.canonical`). Any other value has
faults, and the one that is reported is the first of them: first what is wrong with an array itself,
then what is wrong with its arguments from left to right, then its name and the number of its
arguments (`Json.faults`).
-/

namespace Tradeoff

/-! ### Names of operators -/

namespace Operator

/-- No two operators have names that differ in case only. -/
theorem eq_of_foldCase_eq {op op' : Operator} (h : foldCase op.name = foldCase op'.name) :
    op = op' := by
  have hall : ∀ op ∈ all, ∀ op' ∈ all, foldCase op.name = foldCase op'.name → op = op' := by decide
  exact hall op (mem_all op) op' (mem_all op') h

/-- A name is that of the operator whose name it is when case is ignored. -/
theorem ofName?_eq_some_iff {name : String} {op : Operator} :
    ofName? name = some op ↔ foldCase name = foldCase op.name := by
  have hsame {op' : Operator} (h : ofName? name = some op') :
      foldCase name = foldCase op'.name := by
    have hfound : decide (foldCase op'.name = foldCase name) = true :=
      List.find?_some (p := fun op : Operator ↦ decide (foldCase op.name = foldCase name)) h
    exact (of_decide_eq_true hfound).symm
  refine ⟨hsame, fun h ↦ ?_⟩
  cases hfound : ofName? name with
  | none =>
    have hnone := List.find?_eq_none.mp hfound op (mem_all op)
    exact absurd (decide_eq_true h.symm) hnone
  | some op' => rw [eq_of_foldCase_eq ((hsame hfound).symm.trans h)]

end Operator

/-! ### Values built as array forms -/

/-- The value is built as array forms are. The name of an operator may be written in any case. -/
inductive Json.IsArrayForm : Json → Prop where
  /-- A number that a double can hold. -/
  | number {n : JsonNumber} : n.toFloat.isFinite → IsArrayForm (.number n)
  /-- A truth value. -/
  | bool (value : Bool) : IsArrayForm (.bool value)
  /-- A symbol. -/
  | string (name : String) : IsArrayForm (.string name)
  /-- The name of an operator and as many arguments as it takes. -/
  | operation {name : String} {op : Operator} {items : List Json} :
      Operator.foldCase name = Operator.foldCase op.name → op.arity.accepts items.length →
      (∀ item ∈ items, IsArrayForm item) → IsArrayForm (.array (.string name :: items))

namespace Json

/-- The name as the operator of the name has it. -/
def canonicalName (name : String) : String := ((Operator.ofName? name).map Operator.name).getD name

mutual

/-- The value with the names of operators as operators have them and with numbers as doubles. -/
def canonical : Json → Json
  | .number n => .number (.float n.toFloat)
  | .array (.string name :: items) => .array (.string (canonicalName name) :: canonicals items)
  | value => value

/-- The values, each in canonical form. -/
def canonicals : List Json → List Json
  | [] => []
  | item :: items => canonical item :: canonicals items

end

/-- What is wrong with an operation of the name on so many arguments. -/
def callFaults (name : String) (count : Nat) : List MalformedExpr :=
  match Operator.ofName? name with
  | none => [.unknownOperator name]
  | some op => if op.arity.accepts count then [] else [.arity op count]

mutual

/-- Everything that keeps the value from being an array form, in the order in which it is looked
for. Of an array without a name for its head nothing else is looked at. -/
def faults : Json → List MalformedExpr
  | .number _ | .bool _ | .string _ => []
  | .array [] => [.emptyArray]
  | .array (.string name :: items) => faultsOfItems items ++ callFaults name items.length
  | .array (head :: _) => [.notAName head]
  | .null => [.unexpectedValue .null]
  | .object fields => [.unexpectedValue (.object fields)]

/-- The faults of values, from left to right. -/
def faultsOfItems : List Json → List MalformedExpr
  | [] => []
  | item :: items => faults item ++ faultsOfItems items

end

end Json

/-! ### The first fault is reported -/

/-- What is returned reports the first of the faults, or there are none. -/
def ReportsFirst {α : Type} : List MalformedExpr → Except MalformedExpr α → Prop
  | [], result => ∃ value, result = .ok value
  | fault :: _, result => result = .error fault

namespace ReportsFirst

variable {α β : Type} {faults faults' : List MalformedExpr} {result : Except MalformedExpr α}

theorem eq_error_iff (h : ReportsFirst faults result) {error : MalformedExpr} :
    result = .error error ↔ faults.head? = some error := by
  cases faults with
  | nil =>
    obtain ⟨value, rfl⟩ := h
    exact ⟨nofun, nofun⟩
  | cons fault faults =>
    obtain rfl : result = .error fault := h
    rw [List.head?_cons, Except.error.injEq, Option.some.injEq]

/-- There is a value exactly if there are no faults. -/
theorem exists_eq_ok_iff (h : ReportsFirst faults result) :
    (∃ value, result = .ok value) ↔ faults = [] := by
  cases faults with
  | nil => exact ⟨fun _ ↦ rfl, fun _ ↦ h⟩
  | cons fault faults =>
    obtain rfl : result = .error fault := h
    exact ⟨nofun, nofun⟩

/-- Where one result is needed for the next, the faults of the first come first. -/
theorem append {f : α → Except MalformedExpr β} {whole : Except MalformedExpr β}
    (h : ReportsFirst faults result)
    (herror : ∀ error, result = .error error → whole = .error error)
    (hok : ∀ value, result = .ok value → whole = f value)
    (hnext : ∀ value, result = .ok value → ReportsFirst faults' (f value)) :
    ReportsFirst (faults ++ faults') whole := by
  cases faults with
  | nil =>
    obtain ⟨value, hvalue⟩ := h
    rw [hok value hvalue]
    exact hnext value hvalue
  | cons fault faults => exact herror fault h

end ReportsFirst

namespace Expr

/-- A call reports its name first, and then the number of its arguments. -/
theorem reportsFirst_call? (name : String) (args : List Expr) :
    ReportsFirst (Json.callFaults name args.length) (call? name args) := by
  unfold Json.callFaults call? operation?
  cases Operator.ofName? name with
  | none => rfl
  | some op =>
    show ReportsFirst (if op.arity.accepts args.length then [] else [.arity op args.length])
      (if op.arity.accepts args.length then .ok (operation op args)
        else .error (.arity op args.length))
    split
    · exact ⟨_, rfl⟩
    · rfl

/-- There is an argument for each item. -/
theorem length_of_ofArrayForms? {items : List Json} {args : List Expr}
    (h : ofArrayForms? items = .ok args) : args.length = items.length := by
  induction items generalizing args with
  | nil =>
    cases h
    rfl
  | cons item items ih =>
    rw [ofArrayForms?] at h
    split at h
    · cases h
    · split at h
      · cases h
      · next rest hrest =>
        cases h
        rw [List.length_cons, List.length_cons, ih hrest]

mutual

/-- By induction on the value. -/
theorem reportsFirst_ofArrayForm? : ∀ v : Json, ReportsFirst v.faults (ofArrayForm? v)
  | .number n => ⟨.number n.toFloat, by rw [ofArrayForm?]⟩
  | .bool b => ⟨.bool b, by rw [ofArrayForm?]⟩
  | .string name => ⟨.symbol name, by rw [ofArrayForm?]⟩
  | .array (.string name :: items) => by
    rw [Json.faults, ofArrayForm?]
    refine (reportsFirst_ofArrayForms? items).append (f := call? name)
      (fun error herror ↦ by rw [herror]) (fun args hargs ↦ by rw [hargs]) fun args hargs ↦ ?_
    rw [← length_of_ofArrayForms? hargs]
    exact reportsFirst_call? name args
  | .array [] | .array (.null :: _) | .array (.bool _ :: _) | .array (.number _ :: _)
  | .array (.array _ :: _) | .array (.object _ :: _) | .null | .object _ => by
    simp only [Json.faults, ofArrayForm?, ReportsFirst]

/-- Items are read in order, so the first fault of the first faulty item is reported. -/
theorem reportsFirst_ofArrayForms? : ∀ items : List Json,
    ReportsFirst (Json.faultsOfItems items) (ofArrayForms? items)
  | [] => ⟨[], by rw [ofArrayForms?]⟩
  | item :: items => by
    rw [Json.faultsOfItems, ofArrayForms?]
    refine (reportsFirst_ofArrayForm? item).append
      (f := fun arg ↦ (ofArrayForms? items).map (arg :: ·))
      (fun error herror ↦ by rw [herror]) (fun arg harg ↦ ?_) fun arg harg ↦ ?_
    · rw [harg]
      cases ofArrayForms? items <;> rfl
    · have hrest := reportsFirst_ofArrayForms? items
      cases hfaults : Json.faultsOfItems items with
      | nil =>
        rw [hfaults] at hrest
        obtain ⟨args, hargs⟩ := hrest
        exact ⟨arg :: args, by rw [hargs]; rfl⟩
      | cons fault faults =>
        rw [hfaults] at hrest
        show Except.map _ (ofArrayForms? items) = _
        rw [show ofArrayForms? items = .error fault from hrest]
        rfl

end

end Expr

/-! ### Array forms have no faults -/

namespace Json

/-- A call has no faults if its name is that of an operator, up to case, which takes that many
arguments. -/
theorem callFaults_eq_nil_iff {name : String} {count : Nat} :
    callFaults name count = [] ↔
      ∃ op : Operator,
        Operator.foldCase name = Operator.foldCase op.name ∧ op.arity.accepts count := by
  unfold callFaults
  constructor
  · intro h
    split at h
    · cases h
    · next op hop =>
      split at h
      · next haccepts => exact ⟨op, Operator.ofName?_eq_some_iff.mp hop, haccepts⟩
      · cases h
  · rintro ⟨op, hname, haccepts⟩
    rw [Operator.ofName?_eq_some_iff.mpr hname]
    exact if_pos haccepts

/-- The canonical name is that of the operator. -/
theorem canonicalName_eq {name : String} {op : Operator}
    (h : Operator.foldCase name = Operator.foldCase op.name) : canonicalName name = op.name := by
  rw [canonicalName, Operator.ofName?_eq_some_iff.mpr h]
  rfl

mutual

/-- By induction on the value. -/
theorem faults_eq_nil_iff : ∀ v : Json, v.FiniteNumbers → (v.faults = [] ↔ v.IsArrayForm)
  | .number n, hv => by
    rw [faults]
    exact ⟨fun _ ↦ .number (finiteNumbers_number_iff.mp hv), fun _ ↦ rfl⟩
  | .bool b, _ => by
    rw [faults]
    exact ⟨fun _ ↦ .bool b, fun _ ↦ rfl⟩
  | .string name, _ => by
    rw [faults]
    exact ⟨fun _ ↦ .string name, fun _ ↦ rfl⟩
  | .array (.string name :: items), hv => by
    have hitems := (List.forall_mem_cons.mp (finiteNumbers_array_iff.mp hv)).2
    rw [faults, List.append_eq_nil_iff, callFaults_eq_nil_iff,
      faultsOfItems_eq_nil_iff items hitems]
    constructor
    · rintro ⟨hforms, op, hname, haccepts⟩
      exact .operation hname haccepts hforms
    · rintro (_ | _ | _ | ⟨hname, haccepts, hforms⟩)
      exact ⟨hforms, _, hname, haccepts⟩
  | .array [], _ | .array (.null :: _), _ | .array (.bool _ :: _), _ | .array (.number _ :: _), _
  | .array (.array _ :: _), _ | .array (.object _ :: _), _ | .null, _ | .object _, _ => by
    simp only [faults]
    exact ⟨nofun, nofun⟩

/-- Items have no faults if each of them is an array form. -/
theorem faultsOfItems_eq_nil_iff : ∀ items : List Json, (∀ item ∈ items, item.FiniteNumbers) →
    (faultsOfItems items = [] ↔ ∀ item ∈ items, item.IsArrayForm)
  | [], _ => by
    rw [faultsOfItems]
    exact ⟨fun _ ↦ nofun, fun _ ↦ rfl⟩
  | item :: items, hitems => by
    rw [List.forall_mem_cons] at hitems ⊢
    rw [faultsOfItems, List.append_eq_nil_iff, faults_eq_nil_iff item hitems.1,
      faultsOfItems_eq_nil_iff items hitems.2]

end

end Json

namespace Expr

mutual

/-- By induction on the value. -/
theorem toArrayForm_of_ofArrayForm? {e : Expr} :
    ∀ v : Json, v.FiniteNumbers → ofArrayForm? v = .ok e → e.toArrayForm = v.canonical
  | .number n, hv, h => by
    rw [ofArrayForm?] at h
    cases h
    rw [number, toArrayForm, Json.ofFloat, if_pos (Json.finiteNumbers_number_iff.mp hv),
      Json.canonical]
  | .bool b, _, h => by
    rw [ofArrayForm?] at h
    cases h
    rw [bool, toArrayForm, Json.canonical]
    all_goals nofun
  | .string name, _, h => by
    rw [ofArrayForm?] at h
    cases h
    rw [toArrayForm, Json.canonical]
    all_goals nofun
  | .array (.string name :: items), hv, h => by
    have hitems := (List.forall_mem_cons.mp (Json.finiteNumbers_array_iff.mp hv)).2
    rw [ofArrayForm?] at h
    split at h
    · cases h
    · next args hargs =>
      obtain ⟨hname, haccepts⟩ := called_iff.mpr h
      rw [toArrayForm, Json.canonical,
        Json.canonicalName_eq (Operator.ofName?_eq_some_iff.mp hname),
        toArrayForms_of_ofArrayForms? items hitems hargs]
  | .array [], _, h | .array (.null :: _), _, h | .array (.bool _ :: _), _, h
  | .array (.number _ :: _), _, h | .array (.array _ :: _), _, h
  | .array (.object _ :: _), _, h | .null, _, h | .object _, _, h => by cases h

/-- The arguments have the canonical items for their array forms. -/
theorem toArrayForms_of_ofArrayForms? {args : List Expr} :
    ∀ items : List Json, (∀ item ∈ items, item.FiniteNumbers) →
      ofArrayForms? items = .ok args → toArrayForms args = Json.canonicals items
  | [], _, h => by
    rw [ofArrayForms?] at h
    cases h
    rw [toArrayForms, Json.canonicals]
  | item :: items, hitems, h => by
    rw [List.forall_mem_cons] at hitems
    rw [ofArrayForms?] at h
    split at h
    · cases h
    · next arg harg =>
      split at h
      · cases h
      · next rest hrest =>
        cases h
        rw [toArrayForms, Json.canonicals, toArrayForm_of_ofArrayForm? item hitems.1 harg,
          toArrayForms_of_ofArrayForms? items hitems.2 hrest]

end

/-- Array forms and expressions: an expression whose operators have the arguments they take and
whose numbers are finite reads back from its array form. Of all the values that there are in JSON,
whose numbers are finite, those built as array forms are read, each as an expression that has it for
its array form, and for the others the first of their faults is reported. -/
theorem arrayForm_reading :
    (∀ e : Expr, e.TakesArity → e.FiniteNumbers → ofArrayForm? e.toArrayForm = .ok e) ∧
      ∀ v : Json, v.FiniteNumbers →
        ((∃ e, ofArrayForm? v = .ok e) ↔ v.IsArrayForm) ∧
        (∀ e, ofArrayForm? v = .ok e → e.TakesArity ∧ e.toArrayForm = v.canonical) ∧
        ∀ error, ofArrayForm? v = .error error ↔ v.faults.head? = some error := by
  refine ⟨fun e harity hfinite ↦
    (ofArrayForm?_toArrayForm_eq_ok_iff e).mpr ⟨harity, hfinite, rfl⟩, fun v hv ↦ ?_⟩
  have hreports := reportsFirst_ofArrayForm? v
  refine ⟨?_, ?_, fun error ↦ hreports.eq_error_iff⟩
  · rw [hreports.exists_eq_ok_iff, Json.faults_eq_nil_iff v hv]
  · intro e h
    exact ⟨takesArity_of_ofArrayForm? v h, toArrayForm_of_ofArrayForm? v hv h⟩

/-- A symbol that is the name of an operator, and operators whose names are not written as usual. -/
def mixedCase : Json :=
  .array [.string "aDD", .string "Add", .array [.string "negate", .number (.integer 2)]]

/-- A value with three faults, of which the argument that is null comes first. -/
def threeFaults : Json :=
  .array [.string "Divide", .null, .array [], .bool true]

/-- A mixed-case array form is read, and of three faults the first one is reported. -/
theorem mixedCase_reading :
    (mixedCase.FiniteNumbers ∧ mixedCase.IsArrayForm ∧ ∃ e, ofArrayForm? mixedCase = .ok e ∧
      e.TakesArity ∧ e.FiniteNumbers ∧ ofArrayForm? e.toArrayForm = .ok e ∧
      e.toArrayForm = mixedCase.canonical) ∧
    threeFaults.FiniteNumbers ∧ ofArrayForm? threeFaults = .error (.unexpectedValue .null) := by
  have hmixed : mixedCase.FiniteNumbers := by
    have htwo : (JsonNumber.integer 2).toFloat.isFinite := by decide +kernel
    simp [mixedCase, htwo]
  have hfaults : threeFaults.FiniteNumbers := by simp [threeFaults]
  obtain ⟨hback, hreads⟩ := arrayForm_reading
  obtain ⟨hform, hresult, -⟩ := hreads mixedCase hmixed
  have hok : ofArrayForm? mixedCase = .ok (.operation .add [.symbol "Add",
      .operation .negate [.number (JsonNumber.integer 2).toFloat]]) := rfl
  obtain ⟨harity, hcanonical⟩ := hresult _ hok
  have hfinite := finiteNumbers_of_ofArrayForm? mixedCase hmixed hok
  exact ⟨⟨hmixed, hform.mp ⟨_, hok⟩, _, hok, harity, hfinite, hback _ harity hfinite, hcanonical⟩,
    hfaults, ((hreads threeFaults hfaults).2.2 _).mpr rfl⟩

end Expr

end Tradeoff
