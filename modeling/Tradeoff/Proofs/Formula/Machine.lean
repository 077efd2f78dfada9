import Mathlib
import Tradeoff.Formula.Machine
import Tradeoff.Proofs.Formula.Derivation

/-!
# The machine reads what the readers read

The machine of `Tradeoff.Formula.Machine` takes one step from a call or a return to the next one. A
call is finished when an answer is given before the frames that waited when it was made, and while
it is not finished these frames stay where they are (`Machine.Runs`). So the steps of a call do not
depend on what waits below, and the runs of two calls can be put together
(`Machine.Gives.thenRead`).

With that every reader has its part in the machine, and a call for an expression at some depth gives
what is read with the levels that are left (`Machine.serves_expression`).
-/

namespace Tradeoff

variable {limit stop : Nat}

namespace Layer

/-- The layer whose connectives have at least some power. -/
def ofPower (least : Nat) : Layer :=
  if least ≤ 10 then .sum
  else if least ≤ 20 then .product
  else if least ≤ 30 then .signed
  else .atom

/-- A connective is taken at the layer exactly if its power is at least the least one. -/
theorem ofPower_le_layer_iff {least : Nat} {c : Connective} :
    ofPower least ≤ c.layer ↔ least ≤ c.power := by
  unfold ofPower
  split
  · cases c <;> simp [Connective.power, Connective.layer, le_iff, rank] <;> omega
  · split
    · cases c <;> simp [Connective.power, Connective.layer, le_iff, rank] <;> omega
    · split <;> cases c <;> simp [Connective.power, Connective.layer, le_iff, rank] <;> omega

/-- The least power for the right operand is that of its layer. -/
theorem ofPower_rightPower (c : Connective) : ofPower c.rightPower = c.right := by
  cases c <;> rfl

/-- Up to the power of a minus sign, layers are no tighter than that of signed operands. -/
theorem ofPower_le_signed {least : Nat} (h : least ≤ 30) : ofPower least ≤ .signed := by
  unfold ofPower
  split
  · decide
  · split
    · decide
    · exact le_refl _

end Layer

namespace Machine

variable {m m' : Machine} {base stack : List Frame} {depth : Nat} {frame : Frame}
  {o : Except ParseError (Expr × List Lexeme)}

/-! ### Runs above a stack -/

/-- One step after which the frames of `base` are still waiting. -/
def StepsAbove (limit stop : Nat) (base : List Frame) (m m' : Machine) : Prop :=
  m.step limit stop = some m' ∧ base <:+ m'.stack

/-- Some steps during which the frames of `base` keep waiting. -/
def Runs (limit stop : Nat) (base : List Frame) : Machine → Machine → Prop :=
  Relation.ReflTransGen (StepsAbove limit stop base)

theorem Runs.mono {base' : List Frame} (h : Runs limit stop base m m') (hbase : base' <:+ base) :
    Runs limit stop base' m m' :=
  Relation.ReflTransGen.mono (fun _ _ hstep ↦ ⟨hstep.1, hbase.trans hstep.2⟩) _ _ h

/-- The machine comes to an answer before the frames of `stack`, with the given depth. The answer
and the lexemes that are left are the given outcome; after an error it is no matter what is left. -/
def Gives (limit stop : Nat) (m : Machine) (stack : List Frame) (depth : Nat)
    (o : Except ParseError (Expr × List Lexeme)) : Prop :=
  ∃ result rest, Runs limit stop stack m ⟨.answer result, stack, rest, depth⟩ ∧
    o = result.map fun e ↦ (e, rest)

theorem gives_answer (result : Except ParseError Expr) (rest : List Lexeme) :
    Gives limit stop ⟨.answer result, stack, rest, depth⟩ stack depth
      (result.map fun e ↦ (e, rest)) := ⟨result, rest, .refl, rfl⟩

/-- One step before a run that gives an answer. -/
theorem Gives.of_step (hstep : m.step limit stop = some m') (hstack : stack <:+ m'.stack)
    (h : Gives limit stop m' stack depth o) : Gives limit stop m stack depth o := by
  obtain ⟨result, rest, hruns, ho⟩ := h
  exact ⟨result, rest, hruns.head ⟨hstep, hstack⟩, ho⟩

/-- A finished call takes its frame from the stack. If there are more arguments to read, a frame
with one argument more comes in its place. -/
theorem stack_resume (value : Expr) (m : Machine) (frame : Frame) :
    (m.resume value frame).stack = m.stack ∨
      ∃ name named opened args, frame = .argument name named opened args ∧
        (m.resume value frame).stack =
          .argument name named opened (args ++ [value]) :: m.stack := by
  cases frame with
  | group opened =>
    refine .inl ?_
    show (closeGroup opened value m).stack = m.stack
    unfold closeGroup
    split
    · rfl
    · split <;> rfl
  | argument name named opened args =>
    show (closeCall name named opened (args ++ [value]) m).stack = m.stack ∨ _
    rcases hrest : m.rest with _ | ⟨lexeme, rest⟩
    · exact .inl (by simp only [closeCall, hrest, answer])
    · by_cases hclosing : lexeme.token = .closing
      · exact .inl (by simp only [closeCall, hrest, hclosing, if_true, answer])
      · by_cases hcomma : lexeme.token = .comma
        · refine .inr ⟨name, named, opened, args, rfl, ?_⟩
          simp [resume, closeCall, hrest, hcomma]
        · exact .inl (by simp only [closeCall, hrest, hclosing, hcomma, if_false, answer])
  | _ => exact .inl rfl

/-- A frame is taken up again above those that wait below it. -/
theorem suffix_resume (value : Expr) (m : Machine) (frame : Frame) :
    m.stack <:+ (m.resume value frame).stack := by
  rcases stack_resume value m frame with hstack | ⟨_, _, _, _, -, hstack⟩
  · exact hstack.symm ▸ List.suffix_rfl
  · exact hstack.symm ▸ List.suffix_cons _ _

/-- After an error nothing is taken up. -/
theorem stack_abandon (error : ParseError) (m : Machine) (frame : Frame) :
    (m.abandon error frame).stack = m.stack := by
  cases frame <;> rfl

/-- Reading a name leaves the stack where it is. -/
theorem suffix_readName (name : String) (named : Nat) (m : Machine) :
    m.stack <:+ (m.readName name named).stack := by
  unfold readName
  split
  · exact List.suffix_rfl
  · split
    · split
      · exact List.suffix_cons _ _
      · split
        · exact List.suffix_rfl
        · exact List.suffix_cons _ _
    · exact List.suffix_rfl

/-- An operand is read with the frames on the stack waiting. -/
theorem suffix_readOperand (stop : Nat) (control : Control) (stack : List Frame)
    (rest : List Lexeme) (depth : Nat) :
    stack <:+ (readOperand stop ⟨control, stack, rest, depth⟩).stack := by
  rcases rest with _ | ⟨⟨token, offset⟩, rest⟩
  · exact List.suffix_rfl
  · cases token with
    | identifier name => exact suffix_readName name offset ⟨control, stack, rest, depth⟩
    | minus | opening => exact List.suffix_cons _ _
    | _ => exact List.suffix_rfl

/-- What a call gives is passed to the frame that waits for it, unless it is an error. -/
theorem Gives.thenRead {first : Except ParseError (Expr × List Lexeme)}
    {next : Expr → List Lexeme → Except ParseError (Expr × List Lexeme)}
    (h : Gives limit stop m (frame :: stack) depth first) (hframe : frame ≠ .expression)
    (hnext : ∀ value rest, first = .ok (value, rest) →
      Gives limit stop (resume value ⟨.answer (.ok value), stack, rest, depth⟩ frame) stack depth
        (next value rest)) :
    Gives limit stop m stack depth (thenRead first next) := by
  obtain ⟨error | value, rest, hruns, rfl⟩ := h
  · have habandon : abandon error ⟨.answer (.error error), stack, rest, depth⟩ frame =
        ⟨.answer (.error error), stack, rest, depth⟩ := by
      cases frame with
      | expression => exact absurd rfl hframe
      | _ => rfl
    refine ⟨.error error, rest, (hruns.mono (List.suffix_cons _ _)).tail ⟨?_, List.suffix_rfl⟩, rfl⟩
    exact congrArg some habandon
  · obtain ⟨result, rest', hafter, ho⟩ := hnext value rest rfl
    refine ⟨result, rest', (hruns.mono (List.suffix_cons _ _)).trans (hafter.head ⟨rfl, ?_⟩), ho⟩
    exact suffix_resume value ⟨.answer (.ok value), stack, rest, depth⟩ frame

/-- A level that was entered is left, whatever the answer is. -/
theorem Gives.leave (h : Gives limit stop m (.expression :: stack) (depth + 1) o) :
    Gives limit stop m stack depth o := by
  obtain ⟨result, rest, hruns, rfl⟩ := h
  refine ⟨result, rest, (hruns.mono (List.suffix_cons _ _)).tail ⟨?_, List.suffix_rfl⟩, rfl⟩
  cases result <;> rfl

/-! ### The machine reads what the readers read -/

/-- Called at some depth, the machine gives what a reader finds. -/
def Serves (limit stop depth : Nat) (read : Reader) : Prop :=
  ∀ least stack lexemes, Gives limit stop ⟨.expression least, stack, lexemes, depth⟩ stack depth
    (outcome (read (.ofPower least) lexemes))

section Serves

variable {read : Reader} (hread : Serves limit stop depth read)

/-- A call of an operator gives what it is applied to, or the error. -/
theorem gives_applied (name : String) (named : Nat) (args : List Expr) (rest : List Lexeme) :
    Gives limit stop ⟨.answer (applied name named args), stack, rest, depth⟩ stack depth
      (applyCall name named args rest) := by
  have hmap : applyCall name named args rest =
      (applied name named args).map fun e ↦ (e, rest) := by
    unfold applyCall applied
    rcases Expr.call? name args <;> rfl
  rw [hmap]
  exact gives_answer _ _

include hread

/-- A group gives what the reader of groups reads. -/
theorem gives_group (opened : Nat) (lexemes : List Lexeme) :
    Gives limit stop ⟨.expression 0, .group opened :: stack, lexemes, depth⟩ stack depth
      (outcome (group read opened lexemes)) := by
  rw [outcome_group]
  refine (hread 0 _ lexemes).thenRead nofun fun value rest _ ↦ ?_
  show Gives limit stop (closeGroup opened value _) stack depth (close opened value rest)
  unfold closeGroup close
  rcases rest with _ | ⟨lexeme, rest⟩
  · exact gives_answer (.error _) _
  · dsimp only
    split
    · exact gives_answer (.ok _) _
    · exact gives_answer (.error _) _

/-- The arguments that are read are put after those read before. -/
theorem gives_arguments (name : String) (named opened : Nat) (args : List Expr)
    (lexemes : List Lexeme) :
    Gives limit stop ⟨.expression 0, .argument name named opened args :: stack, lexemes, depth⟩
      stack depth
      (thenRead (outcome (arguments read opened lexemes)) fun more rest ↦
        applyCall name named (args ++ more) rest) := by
  rw [outcome_arguments, thenRead_assoc]
  refine (hread 0 _ lexemes).thenRead nofun fun arg rest harg ↦ ?_
  have hshorter := length_lt_of_outcome harg
  show Gives limit stop (closeCall name named opened (args ++ [arg]) _) stack depth _
  unfold closeCall closeOrMore
  rcases rest with _ | ⟨lexeme, rest⟩
  · exact gives_answer (.error _) _
  · dsimp only
    split
    · exact gives_applied name named (args ++ [arg]) rest
    · split
      · have hmore := gives_arguments name named opened (args ++ [arg]) rest
        rw [thenRead_assoc]
        simpa only [thenRead_ok, List.append_assoc, List.singleton_append] using hmore
      · exact gives_answer (.error _) _
termination_by lexemes.length
decreasing_by exact Nat.lt_of_succ_lt hshorter

/-- A name gives what the reader of operands reads, be it a call or not. -/
theorem gives_name (name : String) (offset : Nat) (lexemes : List Lexeme) :
    Gives limit stop (readName name offset ⟨.operand, stack, lexemes, depth⟩) stack depth
      (outcome (operand stop read (⟨.identifier name, offset⟩ :: lexemes))) := by
  unfold readName
  rcases lexemes with _ | ⟨⟨token, opened⟩, rest⟩
  · rw [outcome_operand_name (by simp)]
    exact gives_answer (.ok _) _
  · dsimp only
    split
    · next hopening =>
      subst hopening
      rw [outcome_operand_call, outcome_call]
      rcases rest with _ | ⟨lexeme, rest⟩
      · exact gives_arguments hread name offset opened [] []
      · dsimp only
        split
        · next hclosing =>
          have hnone : argumentList read opened (lexeme :: rest) =
              .ok ⟨[], rest, Nat.lt_succ_self _⟩ := by
            simp only [argumentList, hclosing, if_true]
          rw [hnone]
          exact gives_applied name offset [] rest
        · next hclosing =>
          rw [argumentList_of_head?_ne opened (by simpa using hclosing)]
          exact gives_arguments hread name offset opened [] (lexeme :: rest)
    · next hopening =>
      rw [outcome_operand_name (by simpa using hopening)]
      exact gives_answer (.ok _) _

/-- An operand gives what the reader of operands reads. -/
theorem gives_operand (lexemes : List Lexeme) :
    Gives limit stop ⟨.operand, stack, lexemes, depth⟩ stack depth
      (outcome (operand stop read lexemes)) := by
  refine Gives.of_step rfl (suffix_readOperand stop _ _ lexemes depth) ?_
  rcases lexemes with _ | ⟨⟨token, offset⟩, rest⟩
  · exact gives_answer (.error _) _
  · cases token with
    | number value => exact gives_answer (.ok _) _
    | identifier name => exact gives_name hread name offset rest
    | minus =>
      rw [outcome_operand_minus]
      exact (hread signPower _ rest).thenRead nofun fun value rest' _ ↦
        gives_answer (.ok value.signed) rest'
    | opening =>
      rw [outcome_operand_opening]
      exact gives_group hread offset rest
    | _ => exact gives_answer (.error _) _

/-- As long as connectives follow, their operands are called for. -/
theorem gives_chain (least : Nat) (lhs : Expr) (lexemes : List Lexeme) :
    Gives limit stop ⟨.chain least lhs, stack, lexemes, depth⟩ stack depth
      (outcome (chain read (.ofPower least) lhs lexemes)) := by
  rcases lexemes with _ | ⟨lexeme, rest⟩
  · rw [outcome_chain_nil]
    exact Gives.of_step rfl List.suffix_rfl (gives_answer (.ok lhs) [])
  by_cases htake : ∃ c, Connective.ofToken? lexeme.token = some c ∧ Layer.ofPower least ≤ c.layer
  · obtain ⟨c, hc, hlayer⟩ := htake
    have hstep : takeConnective least lhs ⟨.chain least lhs, stack, lexeme :: rest, depth⟩ =
        ⟨.expression c.rightPower, .right least lhs c :: stack, rest, depth⟩ := by
      simp only [takeConnective, hc, Nat.not_lt.mpr (Layer.ofPower_le_layer_iff.mp hlayer),
        if_false]
    rw [outcome_chain_take hc hlayer]
    refine Gives.of_step (congrArg some hstep) (List.suffix_cons _ _) ?_
    rw [← Layer.ofPower_rightPower]
    refine (hread c.rightPower _ rest).thenRead nofun fun rhs rest' hrhs ↦ ?_
    have hshorter := length_lt_of_outcome hrhs
    exact gives_chain least (c.join lhs rhs) rest'
  · have hleave : ∀ c, Connective.ofToken? lexeme.token = some c →
        ¬Layer.ofPower least ≤ c.layer := fun c hc hlayer ↦ htake ⟨c, hc, hlayer⟩
    have hstep : takeConnective least lhs ⟨.chain least lhs, stack, lexeme :: rest, depth⟩ =
        ⟨.answer (.ok lhs), stack, lexeme :: rest, depth⟩ := by
      unfold takeConnective
      rcases hnext : Connective.ofToken? lexeme.token with _ | c
      · simp only [hnext]
        rfl
      · have hlt : c.power < least :=
          Nat.lt_of_not_le fun hle ↦ hleave c hnext (Layer.ofPower_le_layer_iff.mpr hle)
        simp only [hnext, hlt, if_true]
        rfl
    rw [outcome_chain_leave hleave]
    exact Gives.of_step (congrArg some hstep) List.suffix_rfl (gives_answer (.ok lhs) _)
termination_by lexemes.length
decreasing_by exact Nat.lt_succ_of_lt hshorter

end Serves

/-- By induction on the levels that are left: every reader has its part in the machine, with the
depth and the levels making up the limit. -/
theorem serves_expression (limit stop levels : Nat) {depth : Nat} (h : depth + levels = limit) :
    Serves limit stop depth (expression limit stop levels) := by
  induction levels generalizing depth with
  | zero =>
    intro least stack lexemes
    have hstep : step limit stop ⟨.expression least, stack, lexemes, depth⟩ =
        some ⟨.answer (.error ⟨.tooDeep limit, nextOffset stop lexemes⟩), stack, lexemes, depth⟩ :=
      congrArg some (if_pos h)
    exact Gives.of_step hstep List.suffix_rfl (gives_answer (.error _) _)
  | succ levels ih =>
    intro least stack lexemes
    have hread : Serves limit stop (depth + 1) (expression limit stop levels) := ih (by omega)
    have hstep : step limit stop ⟨.expression least, stack, lexemes, depth⟩ =
        some ⟨.operand, .first least :: .expression :: stack, lexemes, depth + 1⟩ :=
      congrArg some (if_neg (by show depth ≠ limit; omega))
    refine Gives.of_step hstep ((List.suffix_cons _ _).trans (List.suffix_cons _ _)) ?_
    rw [outcome_expression_succ]
    exact Gives.leave ((gives_operand hread lexemes).thenRead nofun fun lhs rest _ ↦
      gives_chain hread least lhs rest)

end Machine

/-- A formula ends with the answer to its first call, or with an error for what is left. -/
theorem parseLexemes_eq_conclude {lexemes rest : List Lexeme} {result : Except ParseError Expr}
    (h : outcome (expression limit stop limit .sum lexemes) = result.map fun e ↦ (e, rest)) :
    parseLexemes limit stop lexemes = conclude result rest := by
  unfold parseLexemes
  rcases hread : expression limit stop limit .sum lexemes with error | ⟨e, left, hshorter⟩
  · rw [hread] at h
    cases result with
    | error error' => exact congrArg Except.error (Except.error.inj h)
    | ok e => cases h
  · rw [hread] at h
    cases result with
    | error error => cases h
    | ok e' =>
      obtain ⟨rfl, rfl⟩ := Prod.mk.inj (Except.ok.inj h)
      cases left <;> rfl

end Tradeoff
