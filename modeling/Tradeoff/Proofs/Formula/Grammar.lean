import Mathlib
import Tradeoff.Proofs.Formula.Recognition

/-!
# Formulas are what the grammar spells

Reading a formula and the grammar agree: what is read is spelled by the tokens, what the tokens
spell is read unless its operands nest too deeply, and tokens spell at most one expression.

The limit on nesting is the only difference between the two, and it is exact: `parseLexemes` accepts
the derivations up to that depth and no others.
-/

namespace Tradeoff

variable {limit stop : Nat} {lexemes : List Lexeme} {e : Expr}

theorem parseLexemes_eq_ok_iff :
    parseLexemes limit stop lexemes = .ok e ↔
      outcome (expression limit stop limit .sum lexemes) = .ok (e, []) := by
  unfold parseLexemes
  rcases expression limit stop limit .sum lexemes with _ | ⟨e', _ | ⟨lexeme, rest⟩, h⟩
  · simp [outcome]
  · simp [outcome]
  · by_cases hclosing : lexeme.token = .closing <;> simp [outcome, hclosing]

theorem parseLexemes_eq_error {error : ParseError}
    (h : outcome (expression limit stop limit .sum lexemes) = .error error) :
    parseLexemes limit stop lexemes = .error error := by
  unfold parseLexemes
  cases hread : expression limit stop limit .sum lexemes with
  | error error' =>
    rw [hread] at h
    exact congrArg Except.error (Except.error.inj h)
  | ok parsed =>
    rw [hread] at h
    cases h

/-- All the tokens are found to spell the expression, with as many levels as it is deep. -/
theorem Derives.outcome_expression {n : Nat} (h : Derives n .sum (tokens lexemes) e [])
    (stop : Nat) :
    Within limit n limit (outcome (expression limit stop limit .sum lexemes)) (.ok (e, [])) := by
  have hfollows : Follows .sum [] := .of_next?_eq_none (by simp) rfl
  obtain ⟨left, hleft, hfound⟩ := (h.recognized hfollows).found h.pos (Layer.le_refl _) (by decide)
    (stops_of_next?_eq_none rfl) lexemes rfl
  obtain rfl : left = [] := List.map_eq_nil_iff.mp hleft
  exact hfound limit

/-- The expressions that are read are those derived within the limit. -/
theorem parseLexemes_eq_ok_iff_derives :
    parseLexemes limit stop lexemes = .ok e ↔
      ∃ n ≤ limit, Derives n .sum (tokens lexemes) e [] := by
  rw [parseLexemes_eq_ok_iff]
  constructor
  · intro h
    exact (derives_of_outcome_expression limit stop limit (by decide) h).1
  · rintro ⟨n, hn, h⟩
    have hwithin : Within limit n limit _ (.ok (e, [])) := h.outcome_expression stop
    simpa only [Within, hn, if_true] using hwithin

/-- An expression that is derived beyond the limit nests too deeply. -/
theorem Derives.parseLexemes_tooDeep {n : Nat} (h : Derives n .sum (tokens lexemes) e [])
    (hn : limit < n) :
    ∃ offset, parseLexemes limit stop lexemes = .error ⟨.tooDeep limit, offset⟩ := by
  have hnot : ¬ n ≤ limit := by omega
  have hwithin : Within limit n limit _ (.ok (e, [])) := h.outcome_expression stop
  obtain ⟨offset, herror⟩ := by simpa only [Within, hnot, if_false] using hwithin
  exact ⟨offset, parseLexemes_eq_error herror⟩

/-- Tokens spell at most one expression: with enough levels, the one that is read. -/
theorem Spells.unique {input : List Token} {e e' : Expr} (h : Spells input e)
    (h' : Spells input e') : e' = e := by
  obtain ⟨n, hn⟩ := h
  obtain ⟨m, hm⟩ := h'
  let lexemes : List Lexeme := input.map fun token ↦ ⟨token, 0⟩
  have htokens : tokens lexemes = input := by simp [tokens, lexemes, Function.comp_def]
  rw [← htokens] at hn hm
  have hread : parseLexemes (max n m) 0 lexemes = .ok e :=
    parseLexemes_eq_ok_iff_derives.mpr ⟨n, by omega, hn⟩
  have hread' : parseLexemes (max n m) 0 lexemes = .ok e' :=
    parseLexemes_eq_ok_iff_derives.mpr ⟨m, by omega, hm⟩
  exact Except.ok.inj (hread'.symm.trans hread)

theorem parse_eq_parseLexemes {formula : String} {lexemes : List Lexeme}
    (h : scan formula = .ok lexemes) :
    parse formula = parseLexemes nestingLimit (byteLength formula.toList) lexemes := by
  simp [parse, parseWithin, h]

/-- Reading a formula finds what its tokens spell. Conversely, what they spell is read, or else its
operands nest too deeply, and they spell nothing else. -/
theorem parse_eq_ok_iff_spells {formula : String} {lexemes : List Lexeme}
    (h : scan formula = .ok lexemes) (e : Expr) :
    (parse formula = .ok e → Spells (tokens lexemes) e) ∧
      (Spells (tokens lexemes) e →
        (parse formula = .ok e ∨
            ∃ offset, parse formula = .error ⟨.tooDeep nestingLimit, offset⟩) ∧
          ∀ e', Spells (tokens lexemes) e' → e' = e) := by
  rw [parse_eq_parseLexemes h]
  constructor
  · intro hread
    obtain ⟨n, -, hderives⟩ := parseLexemes_eq_ok_iff_derives.mp hread
    exact ⟨n, hderives⟩
  · intro hspells
    refine ⟨?_, fun e' ↦ hspells.unique⟩
    obtain ⟨n, hderives⟩ := hspells
    rcases Nat.lt_or_ge nestingLimit n with hdeep | hn
    · exact .inr (hderives.parseLexemes_tooDeep hdeep)
    · exact .inl (parseLexemes_eq_ok_iff_derives.mpr ⟨n, hn, hderives⟩)

/-- A minus sign before a power negates the power, and a difference adds a negation. -/
theorem spells_minus_power_minus :
    scan "-a ^ b - c" = .ok [⟨.minus, 0⟩, ⟨.identifier "a", 1⟩, ⟨.caret, 3⟩, ⟨.identifier "b", 5⟩,
      ⟨.minus, 7⟩, ⟨.identifier "c", 9⟩] ∧
    parse "-a ^ b - c" = .ok (.add (.negate (.power (.symbol "a") (.symbol "b")))
      (.negate (.symbol "c"))) ∧
    Spells [.minus, .identifier "a", .caret, .identifier "b", .minus, .identifier "c"]
      (.add (.negate (.power (.symbol "a") (.symbol "b"))) (.negate (.symbol "c"))) := by
  have hscan : scan "-a ^ b - c" = .ok [⟨.minus, 0⟩, ⟨.identifier "a", 1⟩, ⟨.caret, 3⟩,
      ⟨.identifier "b", 5⟩, ⟨.minus, 7⟩, ⟨.identifier "c", 9⟩] := by cbv
  have hparse : parse "-a ^ b - c" = .ok (.add (.negate (.power (.symbol "a") (.symbol "b")))
      (.negate (.symbol "c"))) := by cbv
  exact ⟨hscan, hparse, (parse_eq_ok_iff_spells hscan _).1 hparse⟩

end Tradeoff
