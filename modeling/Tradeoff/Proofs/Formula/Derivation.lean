import Tradeoff.Proofs.Formula.Reading

/-!
# Reading finds derivations

What a reader finds at a layer is derived by the grammar at that layer
(`derives_of_outcome_expression`), and reading ends only where it has to (`Stops`).

The reader goes along one chain of connectives and never looks back, while the grammar splits a
formula into layers. The link is an invariant of the chain: what it has read so far is derived at
*some* layer, and whatever connective comes next may follow an expression of that layer (`Admits`).
An operand is an atom, after which anything may come, or has a minus sign and was read up to a place
where no power goes on. After a connective the layer is that of the connective, and because its
right operand was read as far as possible, what comes next may follow that layer again
(`stops_right_iff`).
-/

namespace Tradeoff

/-! ### Building trees -/

/-- Operations are extended as the grammar says. -/
theorem extended_iff {op : Operator} {a b e : Expr} :
    Extended op a b e ↔ e = Connective.extend op a b := by
  constructor
  · rintro (_ | hne)
    · simp [Connective.extend]
    · rcases a with _ | _ | ⟨op', args⟩
      · rfl
      · rfl
      · have hop : op' ≠ op := fun h ↦ hne args (h ▸ rfl)
        simp [Connective.extend, hop]
  · rintro rfl
    rcases a with _ | _ | ⟨op', args⟩
    · exact .pair fun args h ↦ by cases h
    · exact .pair fun args h ↦ by cases h
    · by_cases hop : op' = op
      · subst hop
        simpa [Connective.extend] using Extended.append
      · simpa [Connective.extend, hop] using
          Extended.pair fun args h ↦ hop (Expr.operation.inj h).1

/-- Operands are negated as the grammar says. -/
theorem negated_iff {a e : Expr} : Negated a e ↔ e = a.signed := by
  constructor
  · rintro (_ | hne)
    · rfl
    · rcases a with (value | value) | _ | _
      · exact absurd rfl (hne value)
      all_goals rfl
  · rintro rfl
    rcases a with (value | value) | _ | _
    · exact .number
    all_goals exact .operation fun value h ↦ by cases h

/-- Names stand for constants or symbols as the grammar says. -/
theorem named_iff {name : String} {e : Expr} : Named name e ↔ e = .ofIdentifier name := by
  constructor
  · rintro (_ | _ | ⟨htrue, hfalse⟩)
    · rfl
    · rfl
    · simp [Expr.ofIdentifier, htrue, hfalse]
  · rintro rfl
    unfold Expr.ofIdentifier
    split
    · next h => exact h ▸ .true
    · next htrue =>
      split
      · next h => exact h ▸ .false
      · next hfalse => exact .symbol htrue hfalse

/-- A call succeeds exactly as the grammar says. -/
theorem called_iff {name : String} {args : List Expr} {e : Expr} :
    Called name args e ↔ Expr.call? name args = .ok e := by
  constructor
  · rintro ⟨hname, haccepts⟩
    simp [Expr.call?, Expr.operation?, hname, haccepts]
  · unfold Expr.call? Expr.operation?
    intro h
    split at h
    · cases h
    · next op hname =>
      split at h
      · next haccepts =>
        cases h
        exact .operation hname haccepts
      · cases h

/-! ### Connectives between layers -/

namespace Layer

theorem le_iff {a b : Layer} : a ≤ b ↔ a.rank ≤ b.rank := Iff.rfl

theorem le_trans {a b c : Layer} (h : a ≤ b) (h' : b ≤ c) : a ≤ c := Nat.le_trans h h'

theorem le_refl (a : Layer) : a ≤ a := Nat.le_refl a.rank

end Layer

namespace Connective

/-- The token of a connective. -/
def token : Connective → Token
  | plus => .plus
  | minus => .minus
  | times => .star
  | dividedBy => .slash
  | caret => .caret

/-- Connectives are read from their own tokens. -/
theorem ofToken?_eq_some_iff {token : Token} {c : Connective} :
    ofToken? token = some c ↔ token = c.token := by
  constructor
  · intro h
    cases token <;> cases h <;> rfl
  · rintro rfl
    cases c <;> rfl

/-- The layer of the operand before the connective. -/
def left : Connective → Layer
  | plus | minus => .sum
  | times | dividedBy => .product
  | caret => .atom

/-- The connective that tokens start with. -/
def next? (tokens : List Token) : Option Connective := tokens.head?.bind ofToken?

theorem layer_le_left (c : Connective) : c.layer ≤ c.left := by cases c <;> decide

end Connective

/-- Reading at the layer ends before the tokens: they start with no connective that it takes. -/
def Stops (layer : Layer) (tokens : List Token) : Prop :=
  ∀ c, Connective.next? tokens = some c → ¬ layer ≤ c.layer

/-- A connective that the tokens start with may follow an expression of the layer. -/
def Admits (layer : Layer) (tokens : List Token) : Prop :=
  ∀ c, Connective.next? tokens = some c → c.left ≤ layer

theorem Admits.mono {layer layer' : Layer} {tokens : List Token} (h : Admits layer tokens)
    (hle : layer ≤ layer') : Admits layer' tokens :=
  fun c hc ↦ Layer.le_trans (h c hc) hle

theorem admits_atom (tokens : List Token) : Admits .atom tokens :=
  fun c _ ↦ by cases c <;> decide

/-- What may follow the whole that ends with a right operand may follow the operand. -/
theorem Admits.right {c : Connective} {tokens : List Token} (h : Admits c.layer tokens) :
    Admits c.right tokens := by
  intro c' hc'
  have hleft := h c' hc'
  cases c <;> cases c' <;> revert hleft <;> decide

/-- The right operand of a connective is read up to where an expression of the connective's layer
may be followed by what comes. -/
theorem stops_right_iff (c : Connective) {tokens : List Token} :
    Stops c.right tokens ↔ Admits c.layer tokens := by
  have key : ∀ c' : Connective, ¬ c.right ≤ c'.layer ↔ c'.left ≤ c.layer := fun c' ↦ by
    cases c <;> cases c' <;> decide
  simp only [Stops, Admits, key]

/-- After a signed operand exactly that may follow which does not go on in it. -/
theorem stops_signed_iff {tokens : List Token} : Stops .signed tokens ↔ Admits .signed tokens := by
  have key : ∀ c : Connective, ¬ Layer.signed ≤ c.layer ↔ c.left ≤ .signed := fun c ↦ by
    cases c <;> decide
  simp only [Stops, Admits, key]

/-! ### Derivations of any layer -/

/-- What is derived at a layer is derived at every looser one. -/
theorem Derives.loosen {n : Nat} {layer layer' : Layer} {input rest : List Token} {e : Expr}
    (h : Derives n layer' input e rest) (hle : layer ≤ layer') : Derives n layer input e rest := by
  have hsum : Derives n .product input e rest → Derives n .sum input e rest := .ofProduct
  have hproduct : Derives n .signed input e rest → Derives n .product input e rest := .ofSigned
  have hsigned : Derives n .power input e rest → Derives n .signed input e rest := .ofPower
  have hpower : Derives n .atom input e rest → Derives n .power input e rest := .ofAtom
  rw [Layer.le_iff] at hle
  cases layer <;> cases layer' <;> grind [Layer.rank]

/-- Two operands and the connective between them. -/
theorem Derives.join {c : Connective} {n m : Nat} {input middle rest : List Token} {a b : Expr}
    (ha : Derives n c.left input a (c.token :: middle)) (hb : Derives m c.right middle b rest) :
    Derives (max n (m + 1)) c.layer input (c.join a b) rest := by
  cases c with
  | plus => exact .add ha hb (extended_iff.mpr rfl)
  | minus => exact .subtract ha hb (extended_iff.mpr rfl)
  | times => exact .multiply ha hb (extended_iff.mpr rfl)
  | dividedBy => exact .divide ha hb
  | caret => exact .power ha hb

/-! ### What readers find -/

/-- What is left is less than there was before. -/
theorem length_lt_of_outcome {bound : Nat} {α : Type} {r : Except ParseError (Parsed bound α)}
    {value : α} {rest : List Lexeme} (h : outcome r = .ok (value, rest)) : rest.length < bound := by
  rcases r with _ | ⟨_, _, hlt⟩
  · cases h
  · cases h
    exact hlt

/-- A reader finds derivations of at most some depth and ends only where it has to. -/
def FindsDerivations (read : Reader) (depth : Nat) : Prop :=
  ∀ {layer : Layer} {lexemes rest : List Lexeme} {e : Expr}, layer ≤ .signed →
    outcome (read layer lexemes) = .ok (e, rest) →
    (∃ n ≤ depth, Derives n layer (tokens lexemes) e (tokens rest)) ∧ Stops layer (tokens rest)

section Finds

variable {read : Reader} {depth : Nat}

/-- A list of arguments is derived argument by argument, up to the closing parenthesis. -/
theorem derivesArguments_of_outcome (hread : FindsDerivations read depth) {opened : Nat}
    {lexemes rest : List Lexeme} {args : List Expr}
    (h : outcome (arguments read opened lexemes) = .ok (args, rest)) :
    ∃ n ≤ depth, DerivesArguments n (tokens lexemes) args (.closing :: tokens rest) := by
  induction hlength : lexemes.length using Nat.strongRecOn
    generalizing lexemes args with
  | ind length ih =>
    rw [outcome_arguments] at h
    obtain ⟨arg, after, harg, hafter⟩ := thenRead_eq_ok h
    obtain ⟨⟨n, hn, hderives⟩, -⟩ := hread (by decide) harg
    cases after with
    | nil => cases hafter
    | cons lexeme after =>
      simp only [closeOrMore] at hafter
      rw [tokens_cons] at hderives
      split at hafter
      · next hclosing =>
        cases hafter
        exact ⟨n, hn, .one (hclosing ▸ hderives)⟩
      · split at hafter
        · next hcomma =>
          obtain ⟨args', rest', hargs, hresult⟩ := thenRead_eq_ok hafter
          cases hresult
          have hshorter := length_lt_of_outcome harg
          rw [List.length_cons] at hshorter
          obtain ⟨m, hm, hmore⟩ := ih after.length (by omega) hargs rfl
          exact ⟨max n m, by omega, .more (hcomma ▸ hderives) hmore⟩
        · cases hafter

/-- A call is derived one level above its arguments. -/
theorem derives_of_outcome_call (hread : FindsDerivations read depth) {name : String}
    {named opened : Nat} {lexemes rest : List Lexeme} {e : Expr}
    (h : outcome (call read name named opened lexemes) = .ok (e, rest)) :
    ∃ n ≤ depth + 1,
      Derives n .atom (.identifier name :: .opening :: tokens lexemes) e (tokens rest) := by
  rw [outcome_call] at h
  obtain ⟨args, after, hargs, hcall⟩ := thenRead_eq_ok h
  have hcalled : Called name args e ∧ after = rest := by
    unfold applyCall at hcall
    cases hresult : Expr.call? name args with
    | error _ => simp [hresult] at hcall
    | ok e' =>
      simp only [hresult] at hcall
      cases hcall
      exact ⟨called_iff.mpr hresult, rfl⟩
  obtain ⟨hcalled, rfl⟩ := hcalled
  by_cases hclosing : (tokens lexemes).head? = some .closing
  · obtain ⟨offset, tail, rfl, -⟩ :=
      exists_of_tokens_eq_cons (List.head?_eq_some_iff.mp hclosing).choose_spec
    cases hargs
    exact ⟨1, by omega, .callNone hcalled⟩
  · rw [argumentList_of_head?_ne opened hclosing] at hargs
    obtain ⟨n, hn, hderives⟩ := derivesArguments_of_outcome hread hargs
    exact ⟨n + 1, by omega, .call hderives hcalled⟩

/-- A group is derived one level above what it groups. -/
theorem derives_of_outcome_group (hread : FindsDerivations read depth) {opened : Nat}
    {lexemes rest : List Lexeme} {e : Expr}
    (h : outcome (group read opened lexemes) = .ok (e, rest)) :
    ∃ n ≤ depth + 1, Derives n .atom (.opening :: tokens lexemes) e (tokens rest) := by
  rw [outcome_group] at h
  obtain ⟨e', after, hcontent, hclose⟩ := thenRead_eq_ok h
  obtain ⟨⟨n, hn, hderives⟩, -⟩ := hread (by decide) hcontent
  cases after with
  | nil => cases hclose
  | cons lexeme after =>
    simp only [close] at hclose
    split at hclose
    · next hclosing =>
      cases hclose
      rw [tokens_cons, hclosing] at hderives
      exact ⟨n + 1, by omega, .group hderives⟩
    · cases hclose

/-- An operand is an atom, or it has a minus sign and goes as far as it can. -/
theorem derives_of_outcome_operand (hread : FindsDerivations read depth) {stop : Nat}
    {lexemes rest : List Lexeme} {e : Expr}
    (h : outcome (operand stop read lexemes) = .ok (e, rest)) :
    ∃ n ≤ depth + 1, ∃ layer, .signed ≤ layer ∧
      Derives n layer (tokens lexemes) e (tokens rest) ∧ Admits layer (tokens rest) := by
  -- After an atom anything may come.
  have ofAtom {n : Nat} (hn : n ≤ depth + 1)
      (hderives : Derives n .atom (tokens lexemes) e (tokens rest)) :
      ∃ n ≤ depth + 1, ∃ layer, .signed ≤ layer ∧
        Derives n layer (tokens lexemes) e (tokens rest) ∧ Admits layer (tokens rest) :=
    ⟨n, hn, .atom, by decide, hderives, admits_atom _⟩
  rcases lexemes with _ | ⟨⟨token, offset⟩, tail⟩
  · cases h
  cases token with
  | number value =>
    cases h
    exact ofAtom (by omega) .number
  | identifier name =>
    by_cases hopening : (tokens tail).head? = some .opening
    · obtain ⟨opened, tail, rfl, -⟩ :=
        exists_of_tokens_eq_cons (List.head?_eq_some_iff.mp hopening).choose_spec
      rw [outcome_operand_call] at h
      obtain ⟨n, hn, hderives⟩ := derives_of_outcome_call hread h
      exact ofAtom hn hderives
    · rw [outcome_operand_name hopening] at h
      cases h
      exact ofAtom (by omega) (.name (named_iff.mpr rfl))
  | minus =>
    rw [outcome_operand_minus] at h
    obtain ⟨a, rest', ha, hresult⟩ := thenRead_eq_ok h
    cases hresult
    obtain ⟨⟨n, hn, hderives⟩, hstops⟩ := hread (Layer.le_refl _) ha
    exact ⟨n + 1, by omega, .signed, Layer.le_refl _, .negative hderives (negated_iff.mpr rfl),
      stops_signed_iff.mp hstops⟩
  | opening =>
    rw [outcome_operand_opening] at h
    obtain ⟨n, hn, hderives⟩ := derives_of_outcome_group hread h
    exact ofAtom hn hderives
  | _ => cases h

/-- The chain keeps its invariant: what was read is derived at some layer that admits what
follows. -/
theorem derives_of_outcome_chain (hread : FindsDerivations read depth) {layer layer' : Layer}
    {input : List Token} {lexemes rest : List Lexeme} {lhs e : Expr} {n : Nat}
    (hlhs : Derives n layer' input lhs (tokens lexemes)) (hn : n ≤ depth + 1)
    (hle : layer ≤ layer') (hadmits : Admits layer' (tokens lexemes))
    (h : outcome (chain read layer lhs lexemes) = .ok (e, rest)) :
    (∃ n ≤ depth + 1, Derives n layer input e (tokens rest)) ∧ Stops layer (tokens rest) := by
  induction hlength : lexemes.length using Nat.strongRecOn
    generalizing lexemes lhs layer' n with
  | ind length ih =>
    rcases lexemes with _ | ⟨lexeme, tail⟩
    · rw [outcome_chain_nil] at h
      cases h
      exact ⟨⟨n, hn, hlhs.loosen hle⟩, fun c hc ↦ by cases hc⟩
    by_cases htake : ∃ c, Connective.ofToken? lexeme.token = some c ∧ layer ≤ c.layer
    · obtain ⟨c, hc, hlayer⟩ := htake
      rw [outcome_chain_take hc hlayer] at h
      obtain ⟨rhs, rest', hrhs, hgoes⟩ := thenRead_eq_ok h
      obtain ⟨⟨m, hm, hright⟩, hstops⟩ := hread (by cases c <;> decide) hrhs
      -- The invariant makes what was read a left operand of the connective that comes.
      have hleft : Derives n c.left input lhs (c.token :: tokens tail) := by
        rw [← Connective.ofToken?_eq_some_iff.mp hc]
        exact hlhs.loosen (hadmits c hc)
      have hshorter := length_lt_of_outcome hrhs
      rw [List.length_cons] at hlength
      exact ih rest'.length (by omega) (hleft.join hright) (by omega) hlayer
        ((stops_right_iff c).mp hstops) hgoes rfl
    · have hleave : ∀ c, Connective.ofToken? lexeme.token = some c → ¬ layer ≤ c.layer :=
        fun c hc hlayer ↦ htake ⟨c, hc, hlayer⟩
      rw [outcome_chain_leave hleave] at h
      cases h
      exact ⟨⟨n, hn, hlhs.loosen hle⟩, hleave⟩

end Finds

/-- What `expression` finds with so many levels is derived with at most that depth. -/
theorem derives_of_outcome_expression (limit stop levels : Nat) :
    FindsDerivations (expression limit stop levels) levels := by
  induction levels with
  | zero =>
    intro layer lexemes rest e _ h
    cases h
  | succ levels ih =>
    intro layer lexemes rest e hlayer h
    rw [outcome_expression_succ] at h
    obtain ⟨lhs, after, hoperand, hchain⟩ := thenRead_eq_ok h
    obtain ⟨n, hn, layer', hsigned, hlhs, hadmits⟩ := derives_of_outcome_operand ih hoperand
    exact derives_of_outcome_chain ih hlhs hn (Layer.le_trans hlayer hsigned) hadmits hchain

end Tradeoff
