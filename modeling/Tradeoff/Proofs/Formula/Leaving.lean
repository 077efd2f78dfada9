import Tradeoff.Proofs.Formula.Forms

/-!
# Where readers leave off

A reader leaves the lexemes after those that it used up, and it makes a call of every name that a
parenthesis follows (`LeavesOff`). So the lexemes that were read have the form of an expression, and
the token after them has to be one that follows an operand (`exists_used`).
-/

namespace Tradeoff

/-- Something was read up to `rest`, and if a name was read last, no parenthesis follows. -/
def LeavesOff (lexemes rest : List Lexeme) : Prop :=
  ∃ used last, lexemes = used ++ last :: rest ∧
    ((∃ name, last.token = .identifier name) → (tokens rest).head? ≠ some .opening)

namespace LeavesOff

variable {lexemes middle rest : List Lexeme}

/-- One more lexeme may be read before. -/
theorem cons (h : LeavesOff lexemes rest) (lexeme : Lexeme) :
    LeavesOff (lexeme :: lexemes) rest := by
  obtain ⟨used, last, rfl, hlast⟩ := h
  exact ⟨lexeme :: used, last, rfl, hlast⟩

theorem trans (h : LeavesOff lexemes middle) (h' : LeavesOff middle rest) :
    LeavesOff lexemes rest := by
  obtain ⟨used, last, rfl, -⟩ := h
  obtain ⟨used', last', rfl, hlast⟩ := h'
  exact ⟨used ++ last :: used', last', by simp, hlast⟩

/-- A single token other than a name was read. -/
theorem of_token {lexeme : Lexeme} (h : ∀ name, lexeme.token ≠ .identifier name) :
    LeavesOff (lexeme :: rest) rest :=
  ⟨[], lexeme, rfl, fun ⟨name, hname⟩ ↦ absurd hname (h name)⟩

end LeavesOff

/-- Whatever the reader reads, it leaves off. -/
def AlwaysLeavesOff (read : Reader) : Prop :=
  ∀ {layer : Layer} {lexemes rest : List Lexeme} {e : Expr},
    outcome (read layer lexemes) = .ok (e, rest) → LeavesOff lexemes rest

section Leaves

variable {read : Reader} (hread : AlwaysLeavesOff read)

include hread

/-- Arguments leave off at their closing parenthesis. -/
theorem leavesOff_of_arguments {opened : Nat} {lexemes rest : List Lexeme} {args : List Expr}
    (h : outcome (arguments read opened lexemes) = .ok (args, rest)) :
    LeavesOff lexemes rest := by
  induction hlength : lexemes.length using Nat.strongRecOn generalizing lexemes args with
  | ind length ih =>
    rw [outcome_arguments] at h
    obtain ⟨arg, after, harg, hafter⟩ := thenRead_eq_ok h
    cases after with
    | nil => cases hafter
    | cons lexeme after =>
      refine (hread harg).trans ?_
      simp only [closeOrMore] at hafter
      split at hafter
      · next hclosing =>
        cases hafter
        exact .of_token fun name hname ↦ by simp [hclosing] at hname
      · split at hafter
        · obtain ⟨args', rest', hargs, hresult⟩ := thenRead_eq_ok hafter
          cases hresult
          have hshorter := length_lt_of_outcome harg
          rw [List.length_cons] at hshorter
          exact (ih after.length (by omega) hargs rfl).cons lexeme
        · cases hafter

theorem leavesOff_of_argumentList {opened : Nat} {lexemes rest : List Lexeme} {args : List Expr}
    (h : outcome (argumentList read opened lexemes) = .ok (args, rest)) :
    LeavesOff lexemes rest := by
  by_cases hclosing : (tokens lexemes).head? = some .closing
  · obtain ⟨offset, tail, rfl, -⟩ :=
      exists_of_tokens_eq_cons (List.head?_eq_some_iff.mp hclosing).choose_spec
    cases h
    exact .of_token fun name hname ↦ by cases hname
  · rw [argumentList_of_head?_ne opened hclosing] at h
    exact leavesOff_of_arguments hread h

/-- A call leaves off after its arguments. -/
theorem leavesOff_of_call {name : String} {named opened : Nat} {lexemes rest : List Lexeme}
    {e : Expr} (h : outcome (call read name named opened lexemes) = .ok (e, rest)) :
    LeavesOff lexemes rest := by
  rw [outcome_call] at h
  obtain ⟨args, after, hargs, hcall⟩ := thenRead_eq_ok h
  unfold applyCall at hcall
  split at hcall
  · cases hcall
  · cases hcall
    exact leavesOff_of_argumentList hread hargs

/-- A group leaves off after its closing parenthesis. -/
theorem leavesOff_of_group {opened : Nat} {lexemes rest : List Lexeme} {e : Expr}
    (h : outcome (group read opened lexemes) = .ok (e, rest)) : LeavesOff lexemes rest := by
  rw [outcome_group] at h
  obtain ⟨e', after, hcontent, hclose⟩ := thenRead_eq_ok h
  cases after with
  | nil => cases hclose
  | cons lexeme after =>
    simp only [close] at hclose
    split at hclose
    · next hclosing =>
      cases hclose
      exact (hread hcontent).trans (.of_token fun name hname ↦ by simp [hclosing] at hname)
    · cases hclose

/-- An operand leaves off where the last of its parts does. -/
theorem leavesOff_of_operand {stop : Nat} {lexemes rest : List Lexeme} {e : Expr}
    (h : outcome (operand stop read lexemes) = .ok (e, rest)) : LeavesOff lexemes rest := by
  rcases lexemes with _ | ⟨⟨token, offset⟩, tail⟩
  · cases h
  cases token with
  | number value =>
    cases h
    exact .of_token fun name hname ↦ by cases hname
  | identifier name =>
    by_cases hopening : (tokens tail).head? = some .opening
    · obtain ⟨opened, tail, rfl, -⟩ :=
        exists_of_tokens_eq_cons (List.head?_eq_some_iff.mp hopening).choose_spec
      rw [outcome_operand_call] at h
      exact ((leavesOff_of_call hread h).cons _).cons _
    · rw [outcome_operand_name hopening] at h
      cases h
      exact ⟨[], ⟨.identifier name, offset⟩, rfl, fun _ ↦ hopening⟩
  | minus =>
    rw [outcome_operand_minus] at h
    obtain ⟨a, rest', ha, hresult⟩ := thenRead_eq_ok h
    cases hresult
    exact (hread ha).cons _
  | opening =>
    rw [outcome_operand_opening] at h
    exact (leavesOff_of_group hread h).cons _
  | _ => cases h

/-- A chain that has something before it leaves off too. -/
theorem leavesOff_of_chain {layer : Layer} {input lexemes rest : List Lexeme} {lhs e : Expr}
    (hlhs : LeavesOff input lexemes)
    (h : outcome (chain read layer lhs lexemes) = .ok (e, rest)) : LeavesOff input rest := by
  induction hlength : lexemes.length using Nat.strongRecOn generalizing lexemes lhs with
  | ind length ih =>
    rcases lexemes with _ | ⟨lexeme, tail⟩
    · rw [outcome_chain_nil] at h
      cases h
      exact hlhs
    by_cases htake : ∃ c, Connective.ofToken? lexeme.token = some c ∧ layer ≤ c.layer
    · obtain ⟨c, hc, hlayer⟩ := htake
      rw [outcome_chain_take hc hlayer] at h
      obtain ⟨rhs, rest', hrhs, hgoes⟩ := thenRead_eq_ok h
      have hshorter := length_lt_of_outcome hrhs
      rw [List.length_cons] at hlength
      exact ih rest'.length (by omega) (hlhs.trans ((hread hrhs).cons lexeme)) hgoes rfl
    · rw [outcome_chain_leave fun c hc hlayer ↦ htake ⟨c, hc, hlayer⟩] at h
      cases h
      exact hlhs

end Leaves

/-- By induction on the levels that are left, every reader leaves off so. -/
theorem leavesOff_of_expression (limit stop levels : Nat) :
    AlwaysLeavesOff (expression limit stop levels) := by
  induction levels with
  | zero =>
    intro layer lexemes rest e h
    cases h
  | succ levels ih =>
    intro layer lexemes rest e h
    rw [outcome_expression_succ] at h
    obtain ⟨lhs, after, hoperand, hchain⟩ := thenRead_eq_ok h
    exact leavesOff_of_chain ih (leavesOff_of_operand ih hoperand) hchain

/-! ### What was read -/

/-- The lexemes that were read have a form, and what follows them follows an operand. -/
theorem exists_used {layer : Layer} {n : Nat} {lexemes rest : List Lexeme} {e : Expr}
    (hderives : Derives n layer (tokens lexemes) e (tokens rest))
    (hleaves : LeavesOff lexemes rest) :
    ∃ used, lexemes = used ++ rest ∧ Forms layer (tokens used) ∧
      ∀ opened token, (tokens rest).head? = some token →
        Spot.run? (.operand opened) (tokens used ++ [token]) = Spot.pastOperand opened token := by
  obtain ⟨used, last, rfl, hlast⟩ := hleaves
  obtain ⟨ts, hts, hforms⟩ := hderives.exists_forms
  obtain rfl : tokens (used ++ [last]) = ts := by
    rw [List.append_cons, tokens_append] at hts
    exact List.append_cancel_right hts
  refine ⟨used ++ [last], List.append_cons used last rest, hforms, fun opened token htoken ↦ ?_⟩
  have hends := hforms.run opened
  rw [Spot.run?_append]
  rcases hends with hends | hends
  · rw [hends, Option.bind_some, Spot.run?_singleton, Spot.next?]
  · -- After a name the next token is no parenthesis.
    obtain ⟨name, hname⟩ : ∃ name, last.token = .identifier name := by
      rw [tokens_append, Spot.run?_append] at hends
      obtain ⟨before, -, hnext⟩ := Option.bind_eq_some_iff.mp hends
      rw [tokens_cons, tokens_nil, Spot.run?_singleton] at hnext
      exact Spot.exists_identifier_of_next? hnext
    have hopening : token ≠ .opening := fun h ↦ hlast ⟨name, hname⟩ (h ▸ htoken)
    rw [hends, Option.bind_some, Spot.run?_singleton, Spot.next?, if_neg hopening]

end Tradeoff
