import Tradeoff.Proofs.Formula.NormalForm

/-!
# Printed formulas read back

The text of a printable expression is read as its normal form, unless its operands nest too deeply
(`parse_text`). How deep they nest is known exactly, and it is bounded by the height of the
expression. Reading the text of what was read changes nothing any more.
-/

namespace Tradeoff.Expr

/-- The text of a printable expression is read as its normal form exactly up to the limit on
nesting. -/
theorem parse_text {e : Expr} (h : e.Printable) :
    if e.levels ≤ nestingLimit then parse e.text = .ok e.normalize
    else ∃ offset, parse e.text = .error ⟨.tooDeep nestingLimit, offset⟩ :=
  (h.fragment.loosen (Nat.zero_le _)).parse_text

theorem parse_text_eq_ok_iff {e e' : Expr} (h : e.Printable) :
    parse e.text = .ok e' ↔ e.levels ≤ nestingLimit ∧ e' = e.normalize := by
  have hparse := parse_text h
  split at hparse
  · next hlevels =>
    rw [hparse]
    constructor
    · intro heq
      exact ⟨hlevels, (Except.ok.inj heq).symm⟩
    · rintro ⟨-, rfl⟩
      rfl
  · next hlevels =>
    obtain ⟨offset, herror⟩ := hparse
    rw [herror]
    constructor
    · intro heq
      cases heq
    · rintro ⟨hle, -⟩
      exact absurd hle hlevels

/-- The text of a printable expression is read as its normal form or nests too deeply, and it nests
too deeply only if the expression is high. Normal forms are fixed: what has been read from the text
of an expression is read from its own text again. -/
theorem text_reads_as_normalize {e : Expr} (h : e.Printable) :
    (parse e.text = .ok e.normalize ∨
        ∃ offset, parse e.text = .error ⟨.tooDeep nestingLimit, offset⟩) ∧
      (e.height ≤ 127 → parse e.text = .ok e.normalize) ∧
      e.normalize.normalize = e.normalize ∧
      ∀ e', parse e.text = .ok e' → parse e'.text = .ok e' := by
  have hnormal := h.isNormal
  have hlimit : nestingLimit = 256 := rfl
  refine ⟨?_, ?_, hnormal.normalize_eq, ?_⟩
  · have hparse := parse_text h
    split at hparse
    · exact .inl hparse
    · exact .inr hparse
  · intro hheight
    have hlevels := levels_le h
    exact (parse_text_eq_ok_iff h).mpr ⟨by omega, rfl⟩
  · intro e' hread
    obtain ⟨hlevels, rfl⟩ := (parse_text_eq_ok_iff h).mp hread
    -- The normal form is read from its text because it nests no deeper.
    have hle := h.levels_normalize_le
    exact (parse_text_eq_ok_iff hnormal.printable).mpr ⟨by omega, hnormal.normalize_eq.symm⟩

/-- A sum in a sum, a negated term and a negated base. -/
def sumOfSum : Expr :=
  .add (.add (.symbol "a") (.negate (.number 2.5))) (.power (.negate (.number 3)) (.symbol "b"))

/-- One sum, in which the term is still negated and the base is a number. -/
def flatSum : Expr :=
  .operation .add [.symbol "a", .negate (.number 2.5), .power (.number (-3)) (.symbol "b")]

theorem sumOfSum_reads_as_flatSum :
    sumOfSum.Printable ∧ sumOfSum.text = "a - 2.5 + (-3) ^ b" ∧ sumOfSum.normalize = flatSum ∧
      parse "a - 2.5 + (-3) ^ b" = .ok flatSum ∧ flatSum.normalize = flatSum := by
  have hprintable : sumOfSum.Printable := by
    simp only [sumOfSum, add, negate, power, printable_operation, List.forall_mem_cons,
      List.not_mem_nil, false_implies, implies_true, and_true]
    exact ⟨rfl, ⟨rfl, printable_symbol rfl, rfl, printable_number.mpr rfl⟩,
      rfl, ⟨rfl, printable_number.mpr rfl⟩, printable_symbol rfl⟩
  have htext : sumOfSum.text = "a - 2.5 + (-3) ^ b" := by decide +kernel
  have hnormal : sumOfSum.normalize = flatSum := rfl
  have hreads := text_reads_as_normalize hprintable
  rw [htext, hnormal] at hreads
  exact ⟨hprintable, htext, hnormal, hreads.2.1 (by decide), hreads.2.2.1⟩

end Tradeoff.Expr
