import Tradeoff.Proofs.Formula.Grammar
import Tradeoff.Proofs.Formula.Leaving
import Tradeoff.Proofs.Formula.Spacing

/-!
# What an error of the tokens points at

An error that is found in the order of the tokens points at its cause (`blames_of_parseLexemes`).
The main part of that is about the first token that cannot stand where it does: what comes before it
begins a form, and with it nothing does.

The proof is an induction over readers with what they were called for in hand (`Awaits`): whatever
form they were to read, it can be completed to one of the whole by closing the parentheses that are
open, and the spots of what they read are those of a form.
-/

namespace Tradeoff

/-! ### Causes and places -/

/-- The cause is a token that cannot stand where it does. -/
def ParseCause.IsMisplaced : ParseCause → Prop
  | trailingInput | missingOperand | expected _ => True
  | _ => False

/-- More tokens, all of them readable, complete the tokens to the form of a sum. -/
def Completable (before : List Token) : Prop :=
  ∃ more, (∀ token ∈ more, token.IsReadable) ∧ Forms .sum (before ++ more)

/-- Closing parentheses are readable. -/
theorem completable_of_closings {before : List Token} {n : Nat}
    (h : Forms .sum (before ++ List.replicate n .closing)) : Completable before := by
  refine ⟨List.replicate n .closing, fun token htoken ↦ ?_, h⟩
  rw [List.eq_of_mem_replicate htoken]
  trivial

/-- After the tokens an operand has to start: any operand may. -/
def AwaitsOperand (before : List Token) : Prop :=
  ∀ ts, Forms .signed ts → Completable (before ++ ts)

/-- The tokens up to a closing parenthesis, with others after it, are read as the arguments. -/
def ReadAs (inside after : List Token) (args : List Expr) : Prop :=
  inside = [] ∧ args = [] ∨
    ∃ n, DerivesArguments n (inside ++ .closing :: after) args (.closing :: after)

/-- The place of the error is that of its cause among the lexemes of a formula that ends at `stop`.
-/
inductive Blames (limit stop : Nat) (lexemes : List Lexeme) : ParseError → Prop where
  /-- An opening parenthesis lacks its partner: what it opens is complete where the input ends. -/
  | unclosed {before inside : List Lexeme} {offset : Nat} :
      lexemes = before ++ ⟨.opening, offset⟩ :: inside → FormsArguments (tokens inside) →
      Completable (tokens lexemes ++ [.closing]) →
      Blames limit stop lexemes ⟨.unmatchedParenthesis, offset⟩
  /-- A closing parenthesis lacks its partner: it follows a complete expression. -/
  | unopened {before after : List Lexeme} {offset : Nat} :
      lexemes = before ++ ⟨.closing, offset⟩ :: after → Forms .sum (tokens before) →
      Blames limit stop lexemes ⟨.unmatchedParenthesis, offset⟩
  /-- A call builds no expression from its name and its arguments, all of which are read. -/
  | malformed {before inside after : List Lexeme} {name : String} {offset opened closed : Nat}
      {args : List Expr} {error : MalformedExpr} :
      lexemes = before ++ ⟨.identifier name, offset⟩ :: ⟨.opening, opened⟩ ::
        (inside ++ ⟨.closing, closed⟩ :: after) →
      ReadAs (tokens inside) (tokens after) args → Expr.call? name args = .error error →
      Blames limit stop lexemes ⟨.malformed error, offset⟩
  /-- An operand that nests too deeply would start at the place. -/
  | tooDeep {before after : List Lexeme} :
      lexemes = before ++ after → AwaitsOperand (tokens before) →
      Blames limit stop lexemes ⟨.tooDeep limit, nextOffset stop after⟩
  /-- The input ends where an operand has to start. -/
  | ended : AwaitsOperand (tokens lexemes) → Blames limit stop lexemes ⟨.missingOperand, stop⟩
  /-- The first token that cannot stand where it does: what is before it can be completed, and
  nothing that goes on with it has the form of a formula. -/
  | misplaced {before after : List Lexeme} {token : Token} {offset : Nat} {cause : ParseCause} :
      cause.IsMisplaced → lexemes = before ++ ⟨token, offset⟩ :: after →
      Completable (tokens before) → (∀ more, ¬ Forms .sum (tokens before ++ token :: more)) →
      Blames limit stop lexemes ⟨cause, offset⟩

/-! ### What readers are called for -/

/-- After some lexemes a form `p` is awaited, with some parentheses open: it completes the whole up
to closing them, and the spots of what comes `next` are those of a form. -/
structure Awaits (p : List Token → Prop) (before : List Lexeme) (opened : List Bracket)
    (next : List Lexeme) : Prop where
  /-- Closing the parentheses completes the whole. -/
  completes : ∀ ts, p ts →
    Forms .sum (tokens before ++ ts ++ List.replicate opened.length .closing)
  /-- What comes next starts an operand or nothing. -/
  run : ∀ ts, ts ≠ [] → ts <+: tokens next →
    Spot.run? (.operand []) (tokens before ++ ts) = Spot.run? (.operand opened) ts

namespace Awaits

variable {p q : List Token → Prop} {before used next : List Lexeme} {opened opened' : List Bracket}

/-- At the start a sum is awaited, and no parenthesis is open. -/
theorem start (next : List Lexeme) : Awaits (Forms .sum) [] [] next where
  completes ts h := by simpa using h
  run ts _ _ := rfl

theorem mono (h : Awaits p before opened next) (hpq : ∀ ts, q ts → p ts) :
    Awaits q before opened next :=
  ⟨fun ts hts ↦ h.completes ts (hpq ts hts), h.run⟩

/-- A form of what is awaited completes the tokens before. -/
theorem completable (h : Awaits p before opened next) {ts : List Token} (hts : p ts) :
    Completable (tokens before ++ ts) :=
  completable_of_closings (h.completes ts hts)

/-- Going on to what is awaited inside of it: some lexemes were read, after which another form is
awaited, and as many parentheses more have to be closed after it. -/
theorem into (h : Awaits p before opened (used ++ next)) (hne : used ≠ []) {n : Nat}
    (hopened : opened'.length = opened.length + n)
    (hcompletes : ∀ ts, q ts → p (tokens used ++ ts ++ List.replicate n .closing))
    (hrun : Spot.run? (.operand opened) (tokens used) = some (.operand opened') ∨
      Spot.run? (.operand opened) (tokens used) = some (.arguments opened') ∧
        (tokens next).head? ≠ some .closing) :
    Awaits q (before ++ used) opened' next where
  completes ts hts := by
    have hwhole := h.completes _ (hcompletes ts hts)
    rw [hopened, Nat.add_comm, ← List.replicate_append_replicate, tokens_append]
    simpa only [List.append_assoc] using hwhole
  run ts hts hprefix := by
    have hne' : tokens used ≠ [] := fun hnil ↦ hne (List.map_eq_nil_iff.mp hnil)
    have hbefore := h.run (tokens used) hne' ⟨tokens next, (tokens_append used next).symm⟩
    rw [tokens_append, Spot.run?_append, hbefore]
    rcases hrun with hrun | ⟨hrun, hclosing⟩
    · rw [hrun, Option.bind_some]
    · -- Arguments that do not end at once start with an operand.
      obtain ⟨token, tail, rfl⟩ := List.exists_cons_of_ne_nil hts
      have hne : token ≠ .closing := by
        rintro rfl
        obtain ⟨rest, hrest⟩ := hprefix
        rw [← hrest] at hclosing
        exact hclosing rfl
      rw [hrun, Option.bind_some, Spot.run?_cons, Spot.next?_arguments hne, ← Spot.run?_cons]

/-- An operand may start where a form that starts with one is awaited. -/
theorem awaitsOperand {layer : Layer} (h : Awaits (Forms layer) before opened next)
    (hlayer : layer ≤ .signed) : AwaitsOperand (tokens before) :=
  fun _ hts ↦ h.completable (hts.loosen hlayer)

end Awaits

/-- Where an operand is awaited, there is some operand. -/
theorem AwaitsOperand.completable {before : List Token} (h : AwaitsOperand before) :
    Completable before := by
  obtain ⟨more, hmore, hforms⟩ := h [.identifier "x"] ((Forms.name "x").loosen (by decide))
  refine ⟨.identifier "x" :: more, ?_, by simpa using hforms⟩
  rintro token (_ | ⟨_, htoken⟩)
  · exact ⟨'x', [], rfl, rfl, by simp⟩
  · exact hmore token htoken

/-! ### Readers report the causes of their errors -/

/-- After any lexemes where what the reader reads is awaited, it reports the cause of its errors. -/
def BlamesErrors (limit stop : Nat) (read : Reader) : Prop :=
  ∀ {layer : Layer} {before lexemes : List Lexeme} {opened : List Bracket} {e : ParseError},
    layer ≤ .signed → Awaits (Forms layer) before opened lexemes →
    outcome (read layer lexemes) = .error e → Blames limit stop (before ++ lexemes) e

/-- A token that cannot follow the operand before it is misplaced. -/
theorem Awaits.blames_misplaced {p : List Token → Prop} {limit stop : Nat}
    {before used after : List Lexeme} {lexeme : Lexeme} {opened : List Bracket} {cause : ParseCause}
    (h : Awaits p before opened (used ++ lexeme :: after)) (hused : p (tokens used))
    (hpast : Spot.run? (.operand opened) (tokens used ++ [lexeme.token]) = none)
    (hcause : cause.IsMisplaced) :
    Blames limit stop (before ++ (used ++ lexeme :: after)) ⟨cause, lexeme.offset⟩ := by
  have hsplit : before ++ (used ++ lexeme :: after) = before ++ used ++ lexeme :: after := by simp
  refine .misplaced hcause hsplit ?_ fun more hforms ↦ ?_
  · rw [tokens_append]
    exact h.completable hused
  · have hnext : tokens used ++ [lexeme.token] <+: tokens (used ++ lexeme :: after) :=
      ⟨tokens after, by simp [tokens_append]⟩
    have hrun := h.run _ (by simp) hnext
    rw [hpast] at hrun
    exact not_forms_of_run? hrun more (by simpa [tokens_append] using hforms)

/-- Where a sum ends, no connective follows. -/
theorem ofToken?_eq_none_of_stops {token : Token} {ts : List Token}
    (h : Stops .sum (token :: ts)) : Connective.ofToken? token = none := by
  cases hc : Connective.ofToken? token with
  | none => rfl
  | some c => exact absurd (by cases c <;> decide) (h c hc)

section Reports

variable {limit stop depth : Nat} {read : Reader} (hread : FindsDerivations read depth)
  (hleaves : AlwaysLeavesOff read) (hblames : BlamesErrors limit stop read)

include hread hleaves hblames

/-- An error in arguments is in one of them, or where a comma or the closing parenthesis should
be. -/
theorem blames_of_arguments {outer done lexemes : List Lexeme} {offset : Nat}
    {opened : List Bracket} {e : ParseError}
    (hdone : ∀ ts, FormsArguments ts → FormsArguments (tokens done ++ ts))
    (hawaits :
      Awaits FormsArguments (outer ++ ⟨.opening, offset⟩ :: done) (.call :: opened) lexemes)
    (h : outcome (arguments read offset lexemes) = .error e) :
    Blames limit stop (outer ++ ⟨.opening, offset⟩ :: done ++ lexemes) e := by
  induction hlength : lexemes.length using Nat.strongRecOn generalizing done lexemes with
  | ind length ih =>
    rw [outcome_arguments] at h
    rcases thenRead_eq_error h with harg | ⟨arg, after, harg, hafter⟩
    · exact hblames (by decide) (hawaits.mono fun _ ↦ .one) harg
    obtain ⟨⟨n, -, hderives⟩, hstops⟩ := hread (by decide) harg
    obtain ⟨used, rfl, hused, hpast⟩ := exists_used hderives (hleaves harg)
    cases after with
    | nil =>
      cases hafter
      have hsplit : outer ++ ⟨.opening, offset⟩ :: done ++ (used ++ []) =
          outer ++ ⟨.opening, offset⟩ :: (done ++ used) := by simp
      have hinside : FormsArguments (tokens (done ++ used)) :=
        tokens_append done used ▸ hdone _ (.one hused)
      have hcompletes := hawaits.completes _ (.one hused)
      refine .unclosed hsplit hinside (completable_of_closings (n := opened.length) ?_)
      simpa [tokens_append, List.replicate_succ] using hcompletes
    | cons lexeme after =>
      simp only [closeOrMore] at hafter
      split at hafter
      · cases hafter
      next hclosing =>
      split at hafter
      · next hcomma =>
        rcases thenRead_eq_error hafter with hmore | ⟨args, rest, -, hresult⟩
        · -- More arguments are awaited in the same parentheses.
          have hshorter : after.length < length := by
            rw [← hlength, List.length_append, List.length_cons]
            omega
          have hcompletes (ts : List Token) (hts : FormsArguments ts) :
              FormsArguments (tokens (used ++ [lexeme]) ++ ts ++ List.replicate 0 .closing) := by
            simpa [tokens_append, hcomma] using FormsArguments.more hused hts
          have hdone' (ts : List Token) (hts : FormsArguments ts) :
              FormsArguments (tokens (done ++ (used ++ [lexeme])) ++ ts) := by
            simpa [tokens_append] using hdone _ (hcompletes ts hts)
          have hrun := hpast (.call :: opened) lexeme.token rfl
          rw [List.append_cons used lexeme after] at hawaits ⊢
          have hawaits' := hawaits.into (q := FormsArguments) (by simp) (Nat.add_zero _).symm
            hcompletes (.inl ?_)
          · rw [List.append_assoc] at hawaits'
            have hblamed := ih after.length hshorter hdone' hawaits' hmore rfl
            simpa using hblamed
          · rw [tokens_append]
            exact hrun.trans (by rw [hcomma]; rfl)
        · cases hresult
      · next hcomma =>
        cases hafter
        refine hawaits.blames_misplaced (.one hused) ?_ trivial
        rw [hpast (.call :: opened) lexeme.token rfl]
        exact Spot.pastOperand_eq_none (ofToken?_eq_none_of_stops hstops)
          (fun h ↦ absurd h hclosing) fun h ↦ absurd h hcomma

/-- An error in a call is in its arguments, or about their number once all is read. -/
theorem blames_of_call {before lexemes : List Lexeme} {name : String} {offset opening : Nat}
    {opened : List Bracket} {e : ParseError}
    (hawaits : Awaits (Forms .signed) before opened
      (⟨.identifier name, offset⟩ :: ⟨.opening, opening⟩ :: lexemes))
    (h : outcome (call read name offset opening lexemes) = .error e) :
    Blames limit stop
      (before ++ ⟨.identifier name, offset⟩ :: ⟨.opening, opening⟩ :: lexemes) e := by
  rw [outcome_call] at h
  rcases thenRead_eq_error h with hargs | ⟨args, rest, hargs, hcall⟩
  · by_cases hclosing : (tokens lexemes).head? = some .closing
    · obtain ⟨closed, tail, rfl, -⟩ :=
        exists_of_tokens_eq_cons (List.head?_eq_some_iff.mp hclosing).choose_spec
      cases hargs
    · rw [argumentList_of_head?_ne opening hclosing] at hargs
      have hawaits' : Awaits FormsArguments
          (before ++ [⟨.identifier name, offset⟩, ⟨.opening, opening⟩]) (.call :: opened) lexemes :=
        Awaits.into hawaits (List.cons_ne_nil _ _) List.length_cons
          (fun ts hts ↦ (Forms.call name hts).loosen (by decide)) (.inr ⟨rfl, hclosing⟩)
      rw [List.append_cons] at hawaits'
      have hnone (ts : List Token) (hts : FormsArguments ts) :
          FormsArguments (tokens [] ++ ts) := hts
      have hblamed := blames_of_arguments hread hleaves hblames hnone hawaits' hargs
      simpa using hblamed
  · -- All the arguments were read, up to the parenthesis that closes them.
    obtain ⟨error, herror, rfl⟩ :
        ∃ error, Expr.call? name args = .error error ∧ e = ⟨.malformed error, offset⟩ := by
      unfold applyCall at hcall
      cases hresult : Expr.call? name args with
      | error error =>
        rw [hresult] at hcall
        exact ⟨error, rfl, (Except.error.inj hcall).symm⟩
      | ok e => simp [hresult] at hcall
    by_cases hclosing : (tokens lexemes).head? = some .closing
    · obtain ⟨closed, tail, rfl, -⟩ :=
        exists_of_tokens_eq_cons (List.head?_eq_some_iff.mp hclosing).choose_spec
      cases hargs
      have hread : ReadAs (tokens []) (tokens tail) [] := .inl ⟨rfl, rfl⟩
      exact .malformed rfl hread herror
    · rw [argumentList_of_head?_ne opening hclosing] at hargs
      obtain ⟨n, -, hderives⟩ := derivesArguments_of_outcome hread hargs
      obtain ⟨inside, ⟨token, closed⟩, rfl, -⟩ := leavesOff_of_arguments hleaves hargs
      obtain rfl : token = .closing := by
        -- What was derived ends where the reader left off.
        obtain ⟨ts, hts, -⟩ := hderives.exists_forms
        rw [tokens_append] at hts
        exact (List.cons.inj (List.append_inj' hts rfl).2).1
      exact .malformed rfl (.inr ⟨n, by simpa [tokens_append] using hderives⟩) herror

/-- An error in a group is in what it groups, or where the closing parenthesis should be. -/
theorem blames_of_group {before lexemes : List Lexeme} {offset : Nat} {opened : List Bracket}
    {e : ParseError}
    (hawaits : Awaits (Forms .signed) before opened (⟨.opening, offset⟩ :: lexemes))
    (h : outcome (group read offset lexemes) = .error e) :
    Blames limit stop (before ++ ⟨.opening, offset⟩ :: lexemes) e := by
  have hawaits' : Awaits (Forms .sum) (before ++ [⟨.opening, offset⟩]) (.group :: opened) lexemes :=
    Awaits.into hawaits (List.cons_ne_nil _ _) List.length_cons
      (fun ts hts ↦ (Forms.group hts).loosen (by decide)) (.inl rfl)
  rw [outcome_group] at h
  rw [List.append_cons]
  rcases thenRead_eq_error h with hcontent | ⟨content, after, hcontent, hclose⟩
  · exact hblames (by decide) hawaits' hcontent
  obtain ⟨⟨n, -, hderives⟩, hstops⟩ := hread (by decide) hcontent
  obtain ⟨used, rfl, hused, hpast⟩ := exists_used hderives (hleaves hcontent)
  cases after with
  | nil =>
    cases hclose
    have hsplit : before ++ [⟨.opening, offset⟩] ++ (used ++ []) =
        before ++ ⟨.opening, offset⟩ :: used := by simp
    have hcompletes := hawaits'.completes _ hused
    refine .unclosed hsplit (.one hused) (completable_of_closings (n := opened.length) ?_)
    simpa [tokens_append, List.replicate_succ] using hcompletes
  | cons lexeme after =>
    simp only [close] at hclose
    split at hclose
    · cases hclose
    · next hclosing =>
      cases hclose
      refine hawaits'.blames_misplaced hused ?_ trivial
      rw [hpast (.group :: opened) lexeme.token rfl]
      exact Spot.pastOperand_eq_none (ofToken?_eq_none_of_stops hstops)
        (fun h ↦ absurd h hclosing) fun _ hcall ↦ by cases hcall

/-- An error in an operand is that there is none, or an error in what it consists of. -/
theorem blames_of_operand {before lexemes : List Lexeme} {opened : List Bracket} {e : ParseError}
    (hawaits : Awaits (Forms .signed) before opened lexemes)
    (h : outcome (operand stop read lexemes) = .error e) :
    Blames limit stop (before ++ lexemes) e := by
  have hoperand := hawaits.awaitsOperand (Layer.le_refl .signed)
  rcases lexemes with _ | ⟨⟨token, offset⟩, tail⟩
  · cases h
    exact .ended (by simpa using hoperand)
  -- A token that starts no operand is misplaced.
  have misplaced (hinto : Spot.intoOperand opened token = none)
      (he : e = ⟨.missingOperand, offset⟩) :
      Blames limit stop (before ++ ⟨token, offset⟩ :: tail) e := by
    subst he
    refine .misplaced trivial rfl hoperand.completable fun more hforms ↦ ?_
    have hrun := hawaits.run [token] (by simp) ⟨tokens tail, rfl⟩
    rw [Spot.run?_singleton, Spot.next?, hinto] at hrun
    exact not_forms_of_run? hrun more (by simpa using hforms)
  cases token with
  | number value => cases h
  | identifier name =>
    by_cases hopening : (tokens tail).head? = some .opening
    · obtain ⟨opening, tail, rfl, -⟩ :=
        exists_of_tokens_eq_cons (List.head?_eq_some_iff.mp hopening).choose_spec
      rw [outcome_operand_call] at h
      exact blames_of_call hread hleaves hblames hawaits h
    · rw [outcome_operand_name hopening] at h
      cases h
  | minus =>
    rw [outcome_operand_minus] at h
    rcases thenRead_eq_error h with hsigned | ⟨a, rest, -, hresult⟩
    · have hawaits' : Awaits (Forms .signed) (before ++ [⟨.minus, offset⟩]) opened tail :=
        Awaits.into hawaits (List.cons_ne_nil _ _) (Nat.add_zero _).symm
          (fun ts hts ↦ by simpa using Forms.negative hts) (.inl rfl)
      rw [List.append_cons]
      exact hblames (Layer.le_refl .signed) hawaits' hsigned
    · cases hresult
  | opening =>
    rw [outcome_operand_opening] at h
    exact blames_of_group hread hleaves hblames hawaits h
  | _ => exact misplaced rfl (Except.error.inj h).symm

/-- The chain keeps its invariant: the lexemes before it have a form that what follows may
follow. -/
theorem blames_of_chain {layer layer' : Layer} {before done lexemes : List Lexeme}
    {opened : List Bracket} {lhs : Expr} {e : ParseError}
    (hawaits : Awaits (Forms layer) before opened (done ++ lexemes))
    (hdone : Forms layer' (tokens done)) (hle : layer ≤ layer')
    (hadmits : Admits layer' (tokens lexemes))
    (h : outcome (chain read layer lhs lexemes) = .error e) :
    Blames limit stop (before ++ (done ++ lexemes)) e := by
  induction hlength : lexemes.length using Nat.strongRecOn
    generalizing done lexemes lhs layer' with
  | ind length ih =>
    rcases lexemes with _ | ⟨lexeme, tail⟩
    · rw [outcome_chain_nil] at h
      cases h
    by_cases htake : ∃ c, Connective.ofToken? lexeme.token = some c ∧ layer ≤ c.layer
    · obtain ⟨c, hc, hlayer⟩ := htake
      have htoken := Connective.ofToken?_eq_some_iff.mp hc
      have hsigned : c.right ≤ .signed := by cases c <;> decide
      have hleft : Forms c.left (tokens done) := hdone.loosen (hadmits c hc)
      rw [outcome_chain_take hc hlayer] at h
      rcases thenRead_eq_error h with hright | ⟨rhs, rest, hright, hgoes⟩
      · rw [List.append_cons done lexeme tail] at hawaits ⊢
        rw [← List.append_assoc]
        refine hblames hsigned (hawaits.into (by simp) (Nat.add_zero _).symm
          (fun ts hts ↦ ?_) (.inl ?_)) hright
        · simpa [tokens_append, htoken] using (Forms.join c hleft hts).loosen hlayer
        · rw [tokens_append, tokens_cons, tokens_nil, htoken, Spot.run?_append,
            (hleft.run opened).bind_connective, Spot.run?_nil]
      · obtain ⟨⟨m, -, hderives⟩, hstops⟩ := hread hsigned hright
        obtain ⟨used, rfl, hused, -⟩ := exists_used hderives (hleaves hright)
        have hshorter := length_lt_of_outcome hright
        rw [List.length_cons] at hlength
        have hsplit : done ++ lexeme :: (used ++ rest) = done ++ lexeme :: used ++ rest := by simp
        have hjoined : Forms c.layer (tokens (done ++ lexeme :: used)) := by
          rw [tokens_append, tokens_cons, htoken]
          exact .join c hleft hused
        rw [hsplit] at hawaits ⊢
        exact ih rest.length (by omega) hawaits hjoined hlayer ((stops_right_iff c).mp hstops) hgoes
          rfl
    · rw [outcome_chain_leave fun c hc hlayer ↦ htake ⟨c, hc, hlayer⟩] at h
      cases h

end Reports

/-- By induction on the levels that are left, for every reader and every layer. -/
theorem blamesErrors_expression (limit stop levels : Nat) :
    BlamesErrors limit stop (expression limit stop levels) := by
  induction levels with
  | zero =>
    intro layer before lexemes opened e hlayer hawaits h
    rw [outcome_expression_zero] at h
    cases h
    exact .tooDeep rfl (hawaits.awaitsOperand hlayer)
  | succ levels ih =>
    intro layer before lexemes opened e hlayer hawaits h
    have hread : FindsDerivations (expression limit stop levels) levels :=
      derives_of_outcome_expression limit stop levels
    have hleaves : AlwaysLeavesOff (expression limit stop levels) :=
      leavesOff_of_expression limit stop levels
    rw [outcome_expression_succ] at h
    rcases thenRead_eq_error h with hoperand | ⟨lhs, after, hoperand, hchain⟩
    · exact blames_of_operand hread hleaves ih (hawaits.mono fun _ hts ↦ hts.loosen hlayer) hoperand
    · obtain ⟨n, -, layer', hsigned, hderives, hadmits⟩ := derives_of_outcome_operand hread hoperand
      obtain ⟨used, rfl, hused, -⟩ := exists_used hderives (leavesOff_of_operand hleaves hoperand)
      exact blames_of_chain hread hleaves ih hawaits hused (Layer.le_trans hlayer hsigned) hadmits
        hchain

/-- What follows a complete expression: nothing. -/
def finish (e : Expr) : List Lexeme → Except ParseError Expr
  | [] => .ok e
  | lexeme :: _ =>
    if lexeme.token = .closing then .error ⟨.unmatchedParenthesis, lexeme.offset⟩
    else .error ⟨.trailingInput, lexeme.offset⟩

theorem parseLexemes_of_outcome {limit stop : Nat} {lexemes rest : List Lexeme} {e : Expr}
    (h : outcome (expression limit stop limit .sum lexemes) = .ok (e, rest)) :
    parseLexemes limit stop lexemes = finish e rest := by
  unfold parseLexemes
  revert h
  rcases expression limit stop limit .sum lexemes with _ | ⟨e', _ | ⟨lexeme, rest'⟩, hlt⟩
  · rintro ⟨⟩
  · rintro ⟨⟩
    rfl
  · rintro ⟨⟩
    rfl

/-- **Errors point at their causes.** Wherever the lexemes of a formula are not read, the error that
is reported is at the place of its cause. -/
theorem blames_of_parseLexemes {limit stop : Nat} {lexemes : List Lexeme} {e : ParseError}
    (h : parseLexemes limit stop lexemes = .error e) : Blames limit stop lexemes e := by
  have hstart := Awaits.start lexemes
  rcases hread : outcome (expression limit stop limit .sum lexemes) with e' | ⟨a, rest⟩
  · rw [parseLexemes_eq_error hread] at h
    obtain rfl := Except.error.inj h
    exact blamesErrors_expression limit stop limit (by decide) hstart hread
  obtain ⟨⟨n, -, hderives⟩, hstops⟩ :=
    derives_of_outcome_expression limit stop limit (by decide) hread
  obtain ⟨used, rfl, hused, hpast⟩ :=
    exists_used hderives (leavesOff_of_expression limit stop limit hread)
  rw [parseLexemes_of_outcome hread] at h
  cases rest with
  | nil => cases h
  | cons lexeme rest =>
    by_cases hclosing : lexeme.token = .closing
    · obtain ⟨token, offset⟩ := lexeme
      obtain rfl : token = .closing := hclosing
      cases h
      exact .unopened rfl hused
    · rw [finish, if_neg hclosing] at h
      cases h
      refine hstart.blames_misplaced hused ?_ trivial
      rw [hpast [] lexeme.token rfl]
      exact Spot.pastOperand_eq_none (ofToken?_eq_none_of_stops hstops) (fun _ ↦ rfl)
        fun _ hcall ↦ by cases hcall

end Tradeoff
