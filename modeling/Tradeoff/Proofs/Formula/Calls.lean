import Mathlib
import Tradeoff.Proofs.Formula.Leaving
import Tradeoff.Proofs.Formula.Machine

/-!
# Calls return

Whatever the lexemes are, reading them keeps two things: the frames on the stack fit to each other
and to what is done next, and their levels are counted by the depth (`Machine.Consistent`). So there
are at most as many levels as the limit says, with at most three frames each.

A call for an expression returns exactly once (`Machine.ReturnsTo.unique`,
`Machine.exists_returnsTo`), and then the depth is what it was before. `parse_by_calls` puts this
together with what is known of the readers.
-/

namespace Tradeoff

variable {limit stop : Nat}

namespace Machine

variable {m m' : Machine} {base stack : List Frame} {depth : Nat} {frame : Frame}

/-! ### Which frames wait -/

/-- What the last frame on a stack waits for. -/
inductive Awaited where
  /-- The end of an expression. -/
  | expression
  /-- The end of the first operand of an expression. -/
  | operand
  /-- The end of the connectives after it. -/
  | chain

/-- The frames that can wait together, with so many levels entered. -/
inductive Waits : Awaited → (depth : Nat) → List Frame → Prop where
  /-- The whole formula is read. -/
  | start : Waits .expression 0 []
  /-- A level was entered. -/
  | entered {depth : Nat} {stack : List Frame} : Waits .expression depth stack →
      Waits .chain (depth + 1) (.expression :: stack)
  /-- Its first operand is read. -/
  | first {depth : Nat} {stack : List Frame} {least : Nat} : least ≤ 30 →
      Waits .chain depth stack → Waits .operand depth (.first least :: stack)
  /-- After a connective an operand is called for. -/
  | right {depth : Nat} {stack : List Frame} {least : Nat} {lhs : Expr} {c : Connective} :
      least ≤ 30 → Waits .chain depth stack →
      Waits .expression depth (.right least lhs c :: stack)
  /-- After a minus sign an operand is called for. -/
  | negation {depth : Nat} {stack : List Frame} : Waits .operand depth stack →
      Waits .expression depth (.negation :: stack)
  /-- The content of a group is called for. -/
  | group {depth : Nat} {stack : List Frame} {opened : Nat} : Waits .operand depth stack →
      Waits .expression depth (.group opened :: stack)
  /-- An argument is called for. -/
  | argument {depth : Nat} {stack : List Frame} {name : String} {named opened : Nat}
      {args : List Expr} : Waits .operand depth stack →
      Waits .expression depth (.argument name named opened args :: stack)

/-- Frames that the last one leaves room for on its level. -/
def Awaited.spare : Awaited → Nat
  | expression => 0
  | operand => 1
  | chain => 2

/-- Each level that is entered has a frame, and no more than two others. -/
theorem Waits.counts {awaited : Awaited} (h : Waits awaited depth stack) :
    stack.countP Frame.isExpression = depth ∧ stack.length + awaited.spare ≤ 3 * depth := by
  induction h with
  | start => exact ⟨rfl, Nat.le_refl _⟩
  | entered _ ih | first _ _ ih | right _ _ ih | negation _ ih | group _ ih | argument _ ih =>
    obtain ⟨hcount, hlength⟩ := ih
    refine ⟨by simp [List.countP_cons, Frame.isExpression, hcount], ?_⟩
    simp only [List.length_cons, Awaited.spare] at hlength ⊢
    omega

/-- The frames of a machine wait for what it does, and no level too many is entered. -/
structure Consistent (limit : Nat) (m : Machine) : Prop where
  /-- The levels are within the limit. -/
  depth_le : m.depth ≤ limit
  /-- The last frame waits for what is done. -/
  waits : match m.control with
    | .expression least => least ≤ 30 ∧ Waits .expression m.depth m.stack
    | .operand => Waits .operand m.depth m.stack
    | .chain least _ => least ≤ 30 ∧ Waits .chain m.depth m.stack
    | .answer _ => ∃ awaited, Waits awaited m.depth m.stack

section Consistent

variable {awaited : Awaited} {rest : List Lexeme}

/-- At the start no frame waits and no level is used up. -/
theorem consistent_start (limit : Nat) (lexemes : List Lexeme) :
    Consistent limit (start lexemes) := ⟨Nat.zero_le _, Nat.zero_le _, .start⟩

variable (hle : depth ≤ limit)

include hle

theorem consistent_answer {result : Except ParseError Expr} (h : Waits awaited depth stack) :
    Consistent limit ⟨.answer result, stack, rest, depth⟩ := ⟨hle, awaited, h⟩

/-- An expression of any power may be called for where an expression is awaited. -/
theorem consistent_zero (h : Waits .expression depth stack) :
    Consistent limit ⟨.expression 0, stack, rest, depth⟩ := ⟨hle, Nat.zero_le _, h⟩

/-- Entering an expression uses up a level, or it is an error. -/
theorem consistent_enter {least : Nat} {control : Control} (hleast : least ≤ 30)
    (h : Waits .expression depth stack) :
    Consistent limit (enter limit stop least ⟨control, stack, rest, depth⟩) := by
  unfold enter
  split
  · exact consistent_answer hle h
  · next hne =>
    have hlt : depth + 1 ≤ limit := Nat.lt_of_le_of_ne hle hne
    exact ⟨hlt, .first hleast (.entered h)⟩

/-- A name is a call or an operand. -/
theorem consistent_readName {name : String} {named : Nat} {control : Control}
    (h : Waits .operand depth stack) :
    Consistent limit (readName name named ⟨control, stack, rest, depth⟩) := by
  unfold readName
  dsimp only
  split
  · exact consistent_answer hle h
  · split
    · split
      · exact consistent_zero hle (.argument h)
      · split
        · exact consistent_answer hle h
        · exact consistent_zero hle (.argument h)
    · exact consistent_answer hle h

/-- Reading an operand leaves a frame for what comes after it. -/
theorem consistent_readOperand {control : Control} (h : Waits .operand depth stack) :
    Consistent limit (readOperand stop ⟨control, stack, rest, depth⟩) := by
  rcases rest with _ | ⟨⟨token, offset⟩, rest⟩
  · exact consistent_answer hle h
  · cases token with
    | identifier name => exact consistent_readName hle h
    | minus => exact ⟨hle, by decide, .negation h⟩
    | opening => exact consistent_zero hle (.group h)
    | _ => exact consistent_answer hle h

/-- Taking a connective leaves a frame for its right operand. -/
theorem consistent_takeConnective {least : Nat} {lhs : Expr} {control : Control}
    (hleast : least ≤ 30) (h : Waits .chain depth stack) :
    Consistent limit (takeConnective least lhs ⟨control, stack, rest, depth⟩) := by
  unfold takeConnective
  dsimp only
  split
  · exact consistent_answer hle h
  · split
    · exact consistent_answer hle h
    · next c _ =>
      split
      · exact consistent_answer hle h
      · exact ⟨hle, by cases c <;> decide, .right hleast h⟩

/-- A group that is closed is an operand. -/
theorem consistent_closeGroup {opened : Nat} {value : Expr} {control : Control}
    (h : Waits .operand depth stack) :
    Consistent limit (closeGroup opened value ⟨control, stack, rest, depth⟩) := by
  unfold closeGroup
  dsimp only
  split
  · exact consistent_answer hle h
  · split <;> exact consistent_answer hle h

/-- A call that is closed is an operand. -/
theorem consistent_closeCall {name : String} {named opened : Nat} {args : List Expr}
    {control : Control} (h : Waits .operand depth stack) :
    Consistent limit (closeCall name named opened args ⟨control, stack, rest, depth⟩) := by
  unfold closeCall
  dsimp only
  split
  · exact consistent_answer hle h
  · split
    · exact consistent_answer hle h
    · split
      · exact consistent_zero hle (.argument h)
      · exact consistent_answer hle h

/-- A finished call goes on with what the frame below it waits for. -/
theorem consistent_finish {result : Except ParseError Expr} {control : Control}
    (h : Waits awaited depth (frame :: stack)) :
    Consistent limit (finish result ⟨control, stack, rest, depth⟩ frame) := by
  cases h with
  | entered h =>
    have hleft : Consistent limit ⟨.answer result, stack, rest, _⟩ :=
      consistent_answer (Nat.le_of_succ_le hle) h
    cases result <;> exact hleft
  | first hleast h =>
    cases result with
    | error e => exact consistent_answer hle h
    | ok value => exact ⟨hle, hleast, h⟩
  | right hleast h =>
    cases result with
    | error e => exact consistent_answer hle h
    | ok value => exact ⟨hle, hleast, h⟩
  | negation h => cases result <;> exact consistent_answer hle h
  | group h =>
    cases result with
    | error e => exact consistent_answer hle h
    | ok value => exact consistent_closeGroup hle h
  | argument h =>
    cases result with
    | error e => exact consistent_answer hle h
    | ok value => exact consistent_closeCall hle h

end Consistent

/-- Every step keeps the frames and the control together. -/
theorem Consistent.step (h : Consistent limit m) (hstep : m.step limit stop = some m') :
    Consistent limit m' := by
  obtain ⟨control, stack, rest, depth⟩ := m
  obtain ⟨hle, hwaits⟩ := h
  cases control with
  | expression least =>
    obtain rfl := Option.some.inj hstep
    exact consistent_enter hle hwaits.1 hwaits.2
  | operand =>
    obtain rfl := Option.some.inj hstep
    exact consistent_readOperand hle hwaits
  | chain least lhs =>
    obtain rfl := Option.some.inj hstep
    exact consistent_takeConnective hle hwaits.1 hwaits.2
  | answer result =>
    obtain ⟨awaited, hwaits⟩ := hwaits
    cases stack with
    | nil => cases hstep
    | cons frame stack =>
      obtain rfl := Option.some.inj hstep
      exact consistent_finish hle hwaits

/-- Steps keep the machine consistent. -/
theorem Consistent.runs (h : Consistent limit m) (hruns : Runs limit stop base m m') :
    Consistent limit m' := by
  induction hruns with
  | refl => exact h
  | tail _ hstep ih => exact ih.step hstep.1

/-! ### Calls return once -/

/-- The answers of a call: an answer before the same frames that waited when it was made. -/
def ReturnsTo (limit stop : Nat) (m m' : Machine) : Prop :=
  Runs limit stop m.stack m m' ∧ m'.stack = m.stack ∧ ∃ result, m'.control = .answer result

/-- After an answer the frame that waited for it is gone. -/
theorem not_suffix_of_step {result : Except ParseError Expr}
    (hanswer : m.control = .answer result) (hstep : m.step limit stop = some m') :
    ¬m.stack <:+ m'.stack := by
  obtain ⟨control, stack, rest, depth⟩ := m
  obtain rfl : control = .answer result := hanswer
  cases stack with
  | nil => cases hstep
  | cons frame stack =>
    obtain rfl := Option.some.inj hstep
    intro hsuffix
    have hpopped (m' : Machine) (hstack : m'.stack = stack) : ¬frame :: stack <:+ m'.stack := by
      intro hsuffix
      have hlength := hsuffix.length_le
      rw [hstack, List.length_cons] at hlength
      omega
    cases result with
    | error error => exact hpopped _ (stack_abandon error _ frame) hsuffix
    | ok value =>
      rcases stack_resume value ⟨.answer (.ok value), stack, rest, depth⟩ frame with
        hstack | ⟨name, named, opened, args, rfl, hstack⟩
      · exact hpopped _ hstack hsuffix
      · -- The frame that comes in its place has an argument more.
        have hreplaced : Frame.argument name named opened args :: stack <:+
            .argument name named opened (args ++ [value]) :: stack := hstack ▸ hsuffix
        injection (List.cons.inj (hreplaced.eq_of_length rfl)).1 with _ _ _ hargs
        exact List.cons_ne_nil value [] (List.self_eq_append_right.mp hargs)

/-- A run that keeps the frames on the stack cannot go on from an answer. -/
theorem Runs.eq_of_answer {result : Except ParseError Expr} (h : Runs limit stop m.stack m m')
    (hanswer : m.control = .answer result) : m' = m := by
  rcases h.cases_head with rfl | ⟨_, ⟨hstep, hstack⟩, -⟩
  · rfl
  · exact absurd hstack (not_suffix_of_step hanswer hstep)

/-- The machine is deterministic, so there is one return only. -/
theorem ReturnsTo.unique {m'' : Machine} (h : ReturnsTo limit stop m m')
    (h' : ReturnsTo limit stop m m'') : m' = m'' := by
  obtain ⟨hruns, hstack, result, hanswer⟩ := h
  obtain ⟨hruns', hstack', result', hanswer'⟩ := h'
  generalize m.stack = base at hruns hruns' hstack hstack'
  subst hstack
  -- Both runs take the same steps, and neither goes on after the answer of the other.
  induction hruns using Relation.ReflTransGen.head_induction_on with
  | refl => exact (Runs.eq_of_answer hruns' hanswer).symm
  | head hstep _ ih =>
    rcases hruns'.cases_head with rfl | ⟨next, hnext, hrest⟩
    · exact absurd (hstack' ▸ hstep.2) (not_suffix_of_step hanswer' hstep.1)
    · obtain rfl := Option.some.inj (hstep.1.symm.trans hnext.1)
      exact ih hrest

/-- A call within the limit returns with the depth at which it was made, and gives what the readers
find with the levels that are left. -/
theorem exists_returnsTo (stop : Nat) {least : Nat} (hle : m.depth ≤ limit)
    (hcontrol : m.control = .expression least) :
    ∃ result rest, ReturnsTo limit stop m ⟨.answer result, m.stack, rest, m.depth⟩ ∧
      outcome (expression limit stop (limit - m.depth) (.ofPower least) m.rest) =
        result.map fun e ↦ (e, rest) := by
  obtain ⟨control, stack, lexemes, depth⟩ := m
  obtain rfl : control = .expression least := hcontrol
  obtain ⟨result, rest, hruns, houtcome⟩ := serves_expression limit stop (limit - depth)
    (Nat.add_sub_cancel' hle) least stack lexemes
  exact ⟨result, rest, ⟨hruns, rfl, result, rfl⟩, houtcome⟩

/-- A call that is one too many is refused, and nothing is read. -/
theorem step_of_depth_eq (stop : Nat) {least : Nat} (hcontrol : m.control = .expression least)
    (hlimit : m.depth = limit) : m.step limit stop =
      some (m.answer (.error ⟨.tooDeep limit, nextOffset stop m.rest⟩)) := by
  rw [step, hcontrol]
  exact congrArg some (if_pos hlimit)

/-- A call that is answered by one step returns with this answer. -/
theorem returnsTo_of_step {result : Except ParseError Expr}
    (hstep : m.step limit stop = some (m.answer result)) :
    ReturnsTo limit stop m (m.answer result) :=
  ⟨.single ⟨hstep, List.suffix_rfl⟩, rfl, result, rfl⟩

end Machine

open Machine in
/-- Reading by calls. In every state that reading some lexemes comes to, the depth is the number of
expressions that have been entered and not left. It is within the limit, and so is the number of
frames, whatever the number of lexemes is. A call for an expression gives what the reader of
expressions gives with the levels that are left; with none left it is refused at once. It returns
exactly once, with the same frames and the same depth, be it with an error or not. If it gives an
expression, some lexemes have been read: what they spell is complete, and it is not followed by a
connective that the call could take. So reading a formula always comes to its end. -/
theorem parse_by_calls :
    (∀ (limit stop : Nat) (lexemes : List Lexeme) (m : Machine),
      Runs limit stop [] (.start lexemes) m →
        m.stack.countP Frame.isExpression = m.depth ∧ m.depth ≤ limit ∧
        m.stack.length ≤ 3 * limit ∧
        ∀ least, m.control = .expression least →
          ∃ result rest,
            (∀ m', ReturnsTo limit stop m m' ↔ m' = ⟨.answer result, m.stack, rest, m.depth⟩) ∧
            outcome (expression limit stop (limit - m.depth) (.ofPower least) m.rest) =
              result.map (fun e ↦ (e, rest)) ∧
            (m.depth = limit →
              m.step limit stop = some ⟨.answer result, m.stack, m.rest, m.depth⟩ ∧
                result = .error ⟨.tooDeep limit, nextOffset stop m.rest⟩) ∧
            ∀ e, result = .ok e →
              (∃ used, used ≠ [] ∧ m.rest = used ++ rest) ∧
              (∃ n, Derives n (.ofPower least) (tokens m.rest) e (tokens rest)) ∧
              ∀ c, Connective.next? (tokens rest) = some c → c.power < least) ∧
    ∀ formula, (∃ error, scan formula = .error error ∧ parse formula = .error error) ∨
      ∃ lexemes result rest, scan formula = .ok lexemes ∧
        Runs nestingLimit (byteLength formula.toList) [] (.start lexemes)
          ⟨.answer result, [], rest, 0⟩ ∧
        parse formula = conclude result rest := by
  refine ⟨fun limit stop lexemes m hruns ↦ ?_, fun formula ↦ ?_⟩
  · have hconsistent := (consistent_start limit lexemes).runs hruns
    obtain ⟨awaited, hwaits⟩ : ∃ awaited, Waits awaited m.depth m.stack := by
      have hwaits := hconsistent.waits
      split at hwaits
      · exact ⟨_, hwaits.2⟩
      · exact ⟨_, hwaits⟩
      · exact ⟨_, hwaits.2⟩
      · exact hwaits
    obtain ⟨hcount, hlength⟩ := hwaits.counts
    have hle := hconsistent.depth_le
    refine ⟨hcount, hle, by omega, fun least hcontrol ↦ ?_⟩
    have hleast : least ≤ 30 := by
      have hwaits := hconsistent.waits
      rw [hcontrol] at hwaits
      exact hwaits.1
    obtain ⟨result, rest, hreturns, houtcome⟩ := exists_returnsTo stop hle hcontrol
    refine ⟨result, rest, fun m' ↦ ⟨fun h ↦ h.unique hreturns, fun h ↦ h ▸ hreturns⟩, houtcome,
      fun hlimit ↦ ?_, ?_⟩
    · have hstep := step_of_depth_eq stop hcontrol hlimit
      obtain ⟨hanswer, -⟩ := Machine.mk.inj (hreturns.unique (returnsTo_of_step hstep))
      obtain rfl := Control.answer.inj hanswer
      exact ⟨hstep, rfl⟩
    rintro e rfl
    obtain ⟨used, last, hrest, -⟩ := leavesOff_of_expression _ _ _ houtcome
    obtain ⟨⟨n, -, hderives⟩, hstops⟩ := derives_of_outcome_expression _ _ _
      (Layer.ofPower_le_signed hleast) houtcome
    refine ⟨⟨used ++ [last], by simp, by simp [hrest]⟩, ⟨n, hderives⟩, fun c hc ↦ ?_⟩
    exact Nat.lt_of_not_le fun hpower ↦ hstops c hc (Layer.ofPower_le_layer_iff.mpr hpower)
  · rcases hscan : scan formula with error | lexemes
    · exact .inl ⟨error, rfl, by rw [parse, parseWithin, hscan]⟩
    · have hle : (Machine.start lexemes).depth ≤ nestingLimit := Nat.zero_le _
      obtain ⟨result, rest, ⟨hruns, -⟩, houtcome⟩ :=
        exists_returnsTo (byteLength formula.toList) hle rfl
      refine .inr ⟨lexemes, result, rest, rfl, hruns, ?_⟩
      rw [parse, parseWithin, hscan]
      exact parseLexemes_eq_conclude houtcome

/-- The operand after a minus sign is read up to a sign that the call cannot take, and the depth is
that of the call again. A group without an end is read to the end of the formula. -/
theorem calls_of_minus_and_group :
    let lexemes : List Lexeme :=
      [⟨.minus, 0⟩, ⟨.identifier "x", 1⟩, ⟨.plus, 2⟩, ⟨.identifier "y", 3⟩]
    let m : Machine :=
      ⟨.expression 25, [.negation, .first 0, .expression], lexemes.drop 1, 1⟩
    m.stack.countP Frame.isExpression = 1 ∧
    (∀ m', Machine.ReturnsTo nestingLimit 4 m m' ↔
      m' = ⟨.answer (.ok (.symbol "x")), m.stack, lexemes.drop 2, 1⟩) ∧
    (∃ n, Derives n .signed (tokens (lexemes.drop 1)) (.symbol "x") (tokens (lexemes.drop 2))) ∧
    ∃ result rest,
      Machine.Runs nestingLimit 2 [] (.start [⟨.opening, 0⟩, ⟨.identifier "x", 1⟩])
        ⟨.answer result, [], rest, 0⟩ ∧
      conclude result rest = .error ⟨.unmatchedParenthesis, 0⟩ := by
  intro lexemes m
  obtain ⟨hreachable, hformulas⟩ := parse_by_calls
  have hstart : Machine.Runs nestingLimit 4 [] (.start lexemes) m :=
    (Relation.ReflTransGen.refl.tail ⟨rfl, List.nil_suffix⟩).tail ⟨rfl, List.nil_suffix⟩
  obtain ⟨hcount, -, -, hcalls⟩ := hreachable nestingLimit 4 lexemes m hstart
  obtain ⟨result, rest, hreturns, -, -, hread⟩ := hcalls 25 rfl
  -- Entered, read, told, not continued, left.
  have hanswer : Machine.ReturnsTo nestingLimit 4 m
      ⟨.answer (.ok (.symbol "x")), m.stack, lexemes.drop 2, 1⟩ :=
    ⟨((((Relation.ReflTransGen.refl.tail ⟨rfl, [_, _], rfl⟩).tail ⟨rfl, [_, _], rfl⟩).tail
      ⟨rfl, [_], rfl⟩).tail ⟨rfl, [_], rfl⟩).tail ⟨rfl, [], rfl⟩, rfl, _, rfl⟩
  have hsame := (hreturns _).mp hanswer
  obtain ⟨hresult, -, hrest, -⟩ := Machine.mk.inj hsame
  obtain rfl := Control.answer.inj hresult
  subst hrest
  refine ⟨hcount, hreturns, (hread _ rfl).2.1, ?_⟩
  have hscan : scan "(x" = .ok [⟨.opening, 0⟩, ⟨.identifier "x", 1⟩] := by cbv
  rcases hformulas "(x" with ⟨error, herror, -⟩ | ⟨lexemes', result, rest, hlexemes, hruns, hparse⟩
  · cases hscan.symm.trans herror
  · obtain rfl := Except.ok.inj (hscan.symm.trans hlexemes)
    have herror : parse "(x" = .error ⟨.unmatchedParenthesis, 0⟩ := by cbv
    exact ⟨result, rest, hruns, hparse.symm.trans herror⟩

end Tradeoff
