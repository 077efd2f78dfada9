import Tradeoff.Proofs.Formula.Recognition

/-!
# The forms of expressions

What an expression may look like is a coarser question than what it is: operands may nest to any
depth and calls may have any name and any number of arguments. `Forms` is the grammar without these
conditions and without trees, so that everything that is derived has a form
(`Derives.exists_forms`).

Which tokens may come next in a form depends on the parentheses that are open and on whether an
operand is complete (`Spot`). The spots follow every form from its start to its end (`Forms.run`),
so that tokens after which there is no spot are the beginning of no form (`not_forms_of_run?`).
-/

namespace Tradeoff

mutual

/-- The tokens have the form of an expression of the layer. -/
inductive Forms : Layer → List Token → Prop where
  /-- Whatever has the form of a tighter layer has that of a looser one. -/
  | loosen {layer layer' : Layer} {ts : List Token} :
      Forms layer' ts → layer ≤ layer' → Forms layer ts
  /-- Two operands and a connective between them. -/
  | join (c : Connective) {ts ts' : List Token} :
      Forms c.left ts → Forms c.right ts' → Forms c.layer (ts ++ c.token :: ts')
  /-- A minus sign before a signed operand. -/
  | negative {ts : List Token} : Forms .signed ts → Forms .signed (.minus :: ts)
  /-- A number. -/
  | number (value : Float) : Forms .atom [.number value]
  /-- A name. -/
  | name (name : String) : Forms .atom [.identifier name]
  /-- A call of any name without arguments. -/
  | callNone (name : String) : Forms .atom [.identifier name, .opening, .closing]
  /-- A call of any name with any number of arguments. -/
  | call (name : String) {ts : List Token} :
      FormsArguments ts → Forms .atom (.identifier name :: .opening :: (ts ++ [.closing]))
  /-- A group in parentheses. -/
  | group {ts : List Token} : Forms .sum ts → Forms .atom (.opening :: (ts ++ [.closing]))

/-- The tokens have the form of sums with commas between them. -/
inductive FormsArguments : List Token → Prop where
  /-- One argument. -/
  | one {ts : List Token} : Forms .sum ts → FormsArguments ts
  /-- An argument, a comma and more arguments. -/
  | more {ts ts' : List Token} :
      Forms .sum ts → FormsArguments ts' → FormsArguments (ts ++ .comma :: ts')

end

/-! ### What is derived has a form -/

/-- Two operands with a connective between them. -/
theorem exists_forms_join (c : Connective) {input middle rest : List Token}
    (ha : ∃ used, input = used ++ c.token :: middle ∧ Forms c.left used)
    (hb : ∃ used, middle = used ++ rest ∧ Forms c.right used) :
    ∃ used, input = used ++ rest ∧ Forms c.layer used := by
  obtain ⟨a, rfl, ha⟩ := ha
  obtain ⟨b, rfl, hb⟩ := hb
  exact ⟨a ++ c.token :: b, by simp, .join c ha hb⟩

/-- What has the form of a tighter layer has that of a looser one. -/
theorem exists_forms_loosen {layer layer' : Layer} {input rest : List Token} (hle : layer ≤ layer')
    (h : ∃ used, input = used ++ rest ∧ Forms layer' used) :
    ∃ used, input = used ++ rest ∧ Forms layer used := by
  obtain ⟨used, hused, h⟩ := h
  exact ⟨used, hused, h.loosen hle⟩

mutual

/-- By induction on the derivation, rule by rule. -/
theorem Derives.exists_forms {n : Nat} {layer : Layer} {input rest : List Token} {e : Expr} :
    Derives n layer input e rest → ∃ used, input = used ++ rest ∧ Forms layer used
  | .ofProduct h | .ofSigned h | .ofPower h | .ofAtom h =>
    exists_forms_loosen (by decide) h.exists_forms
  | .add ha hb _ => exists_forms_join .plus ha.exists_forms hb.exists_forms
  | .subtract ha hb _ => exists_forms_join .minus ha.exists_forms hb.exists_forms
  | .multiply ha hb _ => exists_forms_join .times ha.exists_forms hb.exists_forms
  | .divide ha hb => exists_forms_join .dividedBy ha.exists_forms hb.exists_forms
  | .power ha hb => exists_forms_join .caret ha.exists_forms hb.exists_forms
  | .negative h _ => by
    obtain ⟨used, rfl, hused⟩ := h.exists_forms
    exact ⟨.minus :: used, rfl, .negative hused⟩
  | .number => ⟨_, rfl, .number _⟩
  | .name _ => ⟨_, rfl, .name _⟩
  | .callNone _ => ⟨_, rfl, .callNone _⟩
  | @Derives.call _ name _ _ _ _ h _ => by
    obtain ⟨used, rfl, hused⟩ := h.exists_forms
    exact ⟨.identifier name :: .opening :: (used ++ [.closing]), by simp, .call name hused⟩
  | .group h => by
    obtain ⟨used, rfl, hused⟩ := h.exists_forms
    exact ⟨.opening :: (used ++ [.closing]), by simp, .group hused⟩

/-- Arguments have forms, with commas between them. -/
theorem DerivesArguments.exists_forms {n : Nat} {input rest : List Token} {args : List Expr} :
    DerivesArguments n input args rest → ∃ used, input = used ++ rest ∧ FormsArguments used
  | .one h => by
    obtain ⟨used, hused, hform⟩ := h.exists_forms
    exact ⟨used, hused, .one hform⟩
  | .more h hs => by
    obtain ⟨used, rfl, hused⟩ := h.exists_forms
    obtain ⟨used', rfl, hused'⟩ := hs.exists_forms
    exact ⟨used ++ .comma :: used', by simp, .more hused hused'⟩

end

/-! ### Spots -/

/-- What a parenthesis opens. -/
inductive Bracket where
  /-- A group. -/
  | group
  /-- The arguments of a call. -/
  | call
deriving DecidableEq

/-- A spot in a form, with the parentheses that are open there, the innermost first. -/
inductive Spot where
  /-- An operand has to start. -/
  | operand (opened : List Bracket)
  /-- Arguments may start or end. -/
  | arguments (opened : List Bracket)
  /-- A name stands before the spot. -/
  | name (opened : List Bracket)
  /-- An operand that is not just a name ends. -/
  | ended (opened : List Bracket)
deriving DecidableEq

namespace Spot

/-- The spot after the first token of an operand. -/
def intoOperand (opened : List Bracket) : Token → Option Spot
  | .number _ => some (ended opened)
  | .identifier _ => some (name opened)
  | .minus => some (operand opened)
  | .opening => some (operand (.group :: opened))
  | _ => none

/-- The spot after a token that follows an operand. -/
def pastOperand : List Bracket → Token → Option Spot
  | _ :: opened, .closing => some (ended opened)
  | .call :: opened, .comma => some (operand (.call :: opened))
  | opened, token => (Connective.ofToken? token).map fun _ ↦ operand opened

/-- The spot after one more token, if a form may have it there. -/
def next? : Spot → Token → Option Spot
  | operand opened, token => intoOperand opened token
  | arguments opened, token =>
    if token = .closing then some (ended opened.tail) else intoOperand opened token
  | name opened, token =>
    if token = .opening then some (arguments (.call :: opened)) else pastOperand opened token
  | ended opened, token => pastOperand opened token

/-- The spot after some tokens. -/
def run? (spot : Spot) (ts : List Token) : Option Spot := ts.foldlM next? spot

@[simp] theorem run?_nil (spot : Spot) : spot.run? [] = some spot := rfl

@[simp] theorem run?_cons (spot : Spot) (token : Token) (ts : List Token) :
    spot.run? (token :: ts) = (spot.next? token).bind (·.run? ts) := List.foldlM_cons

theorem run?_singleton (spot : Spot) (token : Token) : spot.run? [token] = spot.next? token := by
  rw [run?_cons]
  exact Option.bind_fun_some _

theorem run?_append (spot : Spot) (ts ts' : List Token) :
    spot.run? (ts ++ ts') = (spot.run? ts).bind (·.run? ts') := List.foldlM_append

/-- Only after a name the spot is that of one. -/
theorem exists_identifier_of_next? {spot : Spot} {token : Token} {opened : List Bracket}
    (h : spot.next? token = some (.name opened)) : ∃ name, token = .identifier name := by
  have into {opened' : List Bracket} (hinto : intoOperand opened' token = some (.name opened)) :
      ∃ name, token = .identifier name := by
    cases token with
    | identifier name => exact ⟨name, rfl⟩
    | _ => cases hinto
  have past {opened' : List Bracket} : pastOperand opened' token ≠ some (.name opened) := by
    unfold pastOperand
    split
    · simp
    · simp
    · cases Connective.ofToken? token <;> simp
  cases spot with
  | operand => exact into h
  | arguments =>
    simp only [next?] at h
    split at h
    · cases h
    · exact into h
  | name =>
    simp only [next?] at h
    split at h
    · cases h
    · exact absurd h past
  | ended => exact absurd h past

/-- A token that is no connective does not follow an operand, apart from what closes or separates in
the parentheses around it. -/
theorem pastOperand_eq_none {opened : List Bracket} {token : Token}
    (hconnective : Connective.ofToken? token = none) (hclosing : token = .closing → opened = [])
    (hcomma : token = .comma → opened.head? ≠ some .call) : pastOperand opened token = none := by
  unfold pastOperand
  split
  · exact absurd (hclosing rfl) (List.cons_ne_nil _ _)
  · exact absurd rfl (hcomma rfl)
  · rw [hconnective, Option.map_none]

/-- An operand ends at the spot. -/
def EndsOperand (opened : List Bracket) (spot : Option Spot) : Prop :=
  spot = some (ended opened) ∨ spot = some (name opened)

namespace EndsOperand

variable {opened : List Bracket} {spot : Option Spot}

/-- After an operand a connective is followed by another one, with the same parentheses open. -/
theorem bind_connective (h : EndsOperand opened spot) (c : Connective) (ts : List Token) :
    spot.bind (·.run? (c.token :: ts)) = (operand opened).run? ts := by
  rcases h with rfl | rfl <;> cases c <;> cases opened with
    | nil => rfl
    | cons bracket _ => cases bracket <;> rfl

theorem bind_closing {bracket : Bracket} (h : EndsOperand (bracket :: opened) spot)
    (ts : List Token) : spot.bind (·.run? (.closing :: ts)) = (ended opened).run? ts := by
  rcases h with rfl | rfl <;> cases bracket <;> rfl

theorem bind_comma (h : EndsOperand (.call :: opened) spot) (ts : List Token) :
    spot.bind (·.run? (.comma :: ts)) = (operand (.call :: opened)).run? ts := by
  rcases h with rfl | rfl <;> rfl

end EndsOperand

/-- The first argument is an operand, unless there is none. -/
theorem next?_arguments {opened : List Bracket} {token : Token} (h : token ≠ .closing) :
    next? (.arguments opened) token = next? (.operand opened) token := if_neg h

/-- What starts an operand may start arguments. -/
theorem EndsOperand.arguments {opened opened' : List Bracket} {ts : List Token}
    (h : EndsOperand opened (run? (.operand opened') ts)) :
    EndsOperand opened (run? (.arguments opened') ts) := by
  cases ts with
  | nil => rcases h with h | h <;> cases h
  | cons token ts =>
    by_cases hclosing : token = .closing
    · subst hclosing
      rcases h with h | h <;> cases h
    · rwa [run?_cons, next?_arguments hclosing, ← run?_cons]

end Spot

mutual

/-- The spots follow an expression from its start to its end, with the same parentheses open. -/
theorem Forms.run {layer : Layer} {ts : List Token} (opened : List Bracket) :
    Forms layer ts → Spot.EndsOperand opened (Spot.run? (.operand opened) ts)
  | .loosen h _ => h.run opened
  | .join c ha hb => by
    rw [Spot.run?_append, (ha.run opened).bind_connective]
    exact hb.run opened
  | .negative h => h.run opened
  | .number _ | .callNone _ => .inl rfl
  | .name _ => .inr rfl
  | .call _ h => by
    have hargs := (h.run opened).arguments
    show Spot.EndsOperand opened (Spot.run? (.arguments (.call :: opened)) _)
    rw [Spot.run?_append, hargs.bind_closing]
    exact .inl rfl
  | .group h => by
    have hcontent := h.run (.group :: opened)
    show Spot.EndsOperand opened (Spot.run? (.operand (.group :: opened)) _)
    rw [Spot.run?_append, hcontent.bind_closing]
    exact .inl rfl

/-- Arguments end where an operand ends, in the parentheses of their call. -/
theorem FormsArguments.run {ts : List Token} (opened : List Bracket) :
    FormsArguments ts →
      Spot.EndsOperand (.call :: opened) (Spot.run? (.operand (.call :: opened)) ts)
  | .one h => h.run (.call :: opened)
  | .more h hs => by
    rw [Spot.run?_append, (h.run (.call :: opened)).bind_comma]
    exact hs.run opened

end

/-- Tokens after which there is no spot are the beginning of no form. -/
theorem not_forms_of_run? {before : List Token} (h : Spot.run? (.operand []) before = none)
    (after : List Token) : ¬ Forms .sum (before ++ after) := by
  intro hforms
  have hrun := hforms.run []
  rw [Spot.run?_append, h] at hrun
  rcases hrun with hrun | hrun <;> cases hrun

end Tradeoff
