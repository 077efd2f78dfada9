import Tradeoff.Expr.ArrayForm
import Tradeoff.Proofs.Formula.Numbers
import Tradeoff.Proofs.Formula.RoundTrip

/-!
# Array forms read back

The array form of an expression reads back as the expression, provided that operators have the
arguments they take and numbers are finite; otherwise it does not read back at all
(`Expr.ofArrayForm?_toArrayForm_eq_ok_iff`). A whole expression of a description is read differently
only where it is a string, which is a formula then. This makes no difference for a symbol that is an
identifier (`Expr.parse_identifier`).
-/

namespace Tradeoff.Expr

/-! ### Calls -/

theorem call?_name_eq_ok_iff {op : Operator} {args : List Expr} {e : Expr} :
    call? op.name args = .ok e ↔ op.arity.accepts args.length ∧ e = .operation op args := by
  rw [call?, ofName?_name]
  show operation? op args = .ok e ↔ _
  unfold operation?
  split
  · next haccepts =>
    rw [Except.ok.injEq]
    exact ⟨fun heq ↦ ⟨haccepts, heq.symm⟩, fun h ↦ h.2.symm⟩
  · next haccepts =>
    constructor
    · intro h
      cases h
    · rintro ⟨h, -⟩
      exact absurd h haccepts

theorem takesArity_of_call? {name : String} {args : List Expr} {e : Expr}
    (h : call? name args = .ok e) (hargs : ∀ arg ∈ args, arg.TakesArity) : e.TakesArity :=
  (called_iff.mpr h).takesArity hargs

/-! ### Array forms -/

mutual

/-- By induction on the expression. -/
theorem ofArrayForm?_toArrayForm_eq_ok_iff {e' : Expr} : ∀ e : Expr,
    ofArrayForm? e.toArrayForm = .ok e' ↔ e.TakesArity ∧ e.FiniteNumbers ∧ e' = e
  | .literal value => by
    cases value with
    | number x =>
      have hfinite : (literal (.number x)).FiniteNumbers ↔ x.isFinite := finiteNumbers_number
      rw [toArrayForm, Json.ofFloat, hfinite]
      split
      · next hx =>
        rw [ofArrayForm?, Except.ok.injEq]
        exact ⟨fun heq ↦ ⟨takesArity_literal _, hx, heq.symm⟩, fun h ↦ h.2.2.symm⟩
      · next hx =>
        rw [ofArrayForm?]
        exact ⟨nofun, fun h ↦ absurd h.2.1 hx⟩
    | bool b =>
      rw [toArrayForm, ofArrayForm?, Except.ok.injEq]
      exact ⟨fun heq ↦ ⟨takesArity_literal _, finiteNumbers_bool b, heq.symm⟩,
        fun h ↦ h.2.2.symm⟩
  | .symbol name => by
    rw [toArrayForm, ofArrayForm?, Except.ok.injEq]
    exact ⟨fun heq ↦ ⟨takesArity_symbol name, finiteNumbers_symbol name, heq.symm⟩,
      fun h ↦ h.2.2.symm⟩
  | .operation op args => by
    rw [toArrayForm, ofArrayForm?, takesArity_operation, finiteNumbers_operation]
    constructor
    · intro h
      split at h
      · cases h
      · next args' hargs =>
        obtain ⟨harity, hfinite, rfl⟩ := (ofArrayForms?_toArrayForms_eq_ok_iff args).mp hargs
        obtain ⟨haccepts, rfl⟩ := call?_name_eq_ok_iff.mp h
        exact ⟨⟨haccepts, harity⟩, hfinite, rfl⟩
    · rintro ⟨⟨haccepts, harity⟩, hfinite, rfl⟩
      rw [(ofArrayForms?_toArrayForms_eq_ok_iff args).mpr ⟨harity, hfinite, rfl⟩]
      exact call?_name_eq_ok_iff.mpr ⟨haccepts, rfl⟩

theorem ofArrayForms?_toArrayForms_eq_ok_iff {args' : List Expr} : ∀ args : List Expr,
    ofArrayForms? (toArrayForms args) = .ok args' ↔
      (∀ arg ∈ args, arg.TakesArity) ∧ (∀ arg ∈ args, arg.FiniteNumbers) ∧ args' = args
  | [] => by
    rw [toArrayForms, ofArrayForms?, Except.ok.injEq]
    exact ⟨fun heq ↦ ⟨nofun, nofun, heq.symm⟩, fun h ↦ h.2.2.symm⟩
  | arg :: args => by
    rw [toArrayForms, ofArrayForms?, List.forall_mem_cons, List.forall_mem_cons]
    constructor
    · intro h
      split at h
      · cases h
      · next first hfirst =>
        split at h
        · cases h
        · next rest hrest =>
          cases h
          obtain ⟨harity, hfinite, rfl⟩ := (ofArrayForm?_toArrayForm_eq_ok_iff arg).mp hfirst
          obtain ⟨harities, hfinites, rfl⟩ :=
            (ofArrayForms?_toArrayForms_eq_ok_iff args).mp hrest
          exact ⟨⟨harity, harities⟩, ⟨hfinite, hfinites⟩, rfl⟩
    · rintro ⟨⟨harity, harities⟩, ⟨hfinite, hfinites⟩, rfl⟩
      rw [(ofArrayForm?_toArrayForm_eq_ok_iff arg).mpr ⟨harity, hfinite, rfl⟩,
        (ofArrayForms?_toArrayForms_eq_ok_iff args).mpr ⟨harities, hfinites, rfl⟩]

end

mutual

/-- By induction on the value. -/
theorem takesArity_of_ofArrayForm? {e : Expr} :
    ∀ j : Json, ofArrayForm? j = .ok e → e.TakesArity
  | .number n, h => by
    cases h
    exact takesArity_literal _
  | .bool b, h => by
    cases h
    exact takesArity_literal _
  | .string name, h => by
    cases h
    exact takesArity_symbol name
  | .array (.string name :: items), h => by
    rw [ofArrayForm?] at h
    split at h
    · cases h
    · next args hargs => exact takesArity_of_call? h (takesArity_of_ofArrayForms? items hargs)
  | .array [], h | .array (.null :: _), h | .array (.bool _ :: _), h
  | .array (.number _ :: _), h | .array (.array _ :: _), h | .array (.object _ :: _), h
  | .null, h | .object _, h => by cases h

theorem takesArity_of_ofArrayForms? {args : List Expr} :
    ∀ items : List Json, ofArrayForms? items = .ok args → ∀ arg ∈ args, arg.TakesArity
  | [], h => by
    cases h
    exact nofun
  | item :: items, h => by
    rw [ofArrayForms?] at h
    split at h
    · cases h
    · next arg harg =>
      split at h
      · cases h
      · next rest hrest =>
        cases h
        exact List.forall_mem_cons.mpr
          ⟨takesArity_of_ofArrayForm? item harg, takesArity_of_ofArrayForms? items hrest⟩

end

/-! ### Expressions of descriptions -/

/-- An identifier is a formula for itself. -/
theorem parse_identifier {name : String} (h : isIdentifier name) :
    parse name = .ok (.symbol name) := by
  have hlevels : (symbol name).levels = 1 := by rw [levels]
  have hreads : parse (symbol name).text = .ok (.symbol name) :=
    (parse_text_eq_ok_iff (printable_symbol h)).mpr ⟨by rw [hlevels]; decide, rfl⟩
  exact hreads

/-- Anything but a string is an array form. -/
theorem ofSource?_eq_ok_iff {j : Json} (hj : ∀ formula, j ≠ .string formula) {e : Expr} :
    ofSource? j = .ok e ↔ ofArrayForm? j = .ok e := by
  unfold ofSource?
  split
  · exact absurd rfl (hj _)
  · rcases ofArrayForm? j with error | e' <;> simp

/-- Only a symbol is written as a string. -/
theorem eq_symbol_of_toArrayForm_eq {e : Expr} {name : String} (h : e.toArrayForm = .string name) :
    e = .symbol name := by
  cases e with
  | symbol name' =>
    rw [toArrayForm] at h
    cases h
    rfl
  | operation op args =>
    rw [toArrayForm] at h
    cases h
  | literal value =>
    cases value with
    | bool b => cases h
    | number x =>
      rw [toArrayForm, Json.ofFloat] at h
      split at h <;> cases h

/-- An expression whose symbols are identifiers reads back from its array form, as a part of a
description, exactly if operators have the arguments they take and numbers are finite. -/
theorem ofSource?_toArrayForm_eq_ok_iff {e e' : Expr}
    (h : ∀ symbol ∈ e.mentions, isIdentifier symbol) :
    ofSource? e.toArrayForm = .ok e' ↔ e.TakesArity ∧ e.FiniteNumbers ∧ e' = e := by
  by_cases hsymbol : ∃ name, e = .symbol name
  · obtain ⟨name, rfl⟩ := hsymbol
    have hname : isIdentifier name := h name (by simp [mentions])
    rw [toArrayForm, ofSource?, parse_identifier hname, Except.ok.injEq]
    exact ⟨fun heq ↦ ⟨takesArity_symbol name, finiteNumbers_symbol name, heq.symm⟩,
      fun h ↦ h.2.2.symm⟩
  · have hform (name : String) : e.toArrayForm ≠ .string name := fun heq ↦
      hsymbol ⟨name, eq_symbol_of_toArrayForm_eq heq⟩
    rw [ofSource?_eq_ok_iff hform, ofArrayForm?_toArrayForm_eq_ok_iff]

end Tradeoff.Expr
