import Tradeoff.Formula.Parse

/-!
# Reading by a machine

The readers of formulas call each other. Here they are spelled out as a machine with a stack: what
a call has still to do when the call that it waits for is finished is a frame on the stack, and the
number of levels entered and not yet left is counted in a field. One step of the machine goes from
one call or return to the next one.

How far an operand reaches is told by numbers. A connective has a power, and a call for an
expression gives the least power of the connectives that it may take.
-/

namespace Tradeoff

namespace Connective

/-- How tightly the connective binds. -/
def power : Connective → Nat
  | plus | minus => 10
  | times | dividedBy => 20
  | caret => 30

/-- The least power in the operand after the connective. Only an exponent may take the same
connective again. -/
def rightPower (c : Connective) : Nat :=
  if c = caret then c.power else c.power + 1

end Connective

/-- The least power in the operand after a minus sign: more than a factor, less than an exponent. -/
def signPower : Nat := 25

/-- What a call has still to do when the one that it waits for is finished. -/
inductive Frame where
  /-- An expression has been entered: its level is left. -/
  | expression
  /-- The first operand of an expression is read: connectives follow. -/
  | first (least : Nat)
  /-- The operand after a connective is read: it is joined to what is before it. -/
  | right (least : Nat) (lhs : Expr) (connective : Connective)
  /-- The operand after a minus sign is read: it is negated. -/
  | negation
  /-- The content of a group is read: the parenthesis is closed. -/
  | group (opened : Nat)
  /-- An argument of a call is read, after others: there are more, or the call is complete. -/
  | argument (name : String) (named opened : Nat) (args : List Expr)

/-- Whether a level is left with the frame. -/
def Frame.isExpression : Frame → Bool
  | expression => true
  | _ => false

/-- What is done next. -/
inductive Control where
  /-- An expression is called for. -/
  | expression (least : Nat)
  /-- An operand is read. -/
  | operand
  /-- Connectives are taken after what was read. -/
  | chain (least : Nat) (lhs : Expr)
  /-- A call is finished. -/
  | answer (result : Except ParseError Expr)

/-- The state of reading. -/
structure Machine where
  /-- What is done next. -/
  control : Control
  /-- The calls that wait, the last one first. -/
  stack : List Frame
  /-- The lexemes that are left. -/
  rest : List Lexeme
  /-- The number of levels that have been entered and not left. -/
  depth : Nat

namespace Machine

/-- An expression is called for, without any level entered. -/
def start (lexemes : List Lexeme) : Machine := ⟨.expression 0, [], lexemes, 0⟩

/-- The call is finished. -/
def answer (m : Machine) (result : Except ParseError Expr) : Machine :=
  { m with control := .answer result }

/-- Enters a level, unless it is one too many. -/
def enter (limit stop least : Nat) (m : Machine) : Machine :=
  if m.depth = limit then m.answer (.error ⟨.tooDeep limit, nextOffset stop m.rest⟩)
  else ⟨.operand, .first least :: .expression :: m.stack, m.rest, m.depth + 1⟩

/-- What the call of a name with arguments stands for. -/
def applied (name : String) (named : Nat) (args : List Expr) : Except ParseError Expr :=
  match Expr.call? name args with
  | .error e => .error ⟨.malformed e, named⟩
  | .ok e => .ok e

/-- Goes on after a name: it is called if a parenthesis follows. -/
def readName (name : String) (named : Nat) (m : Machine) : Machine :=
  match m.rest with
  | [] => m.answer (.ok (.ofIdentifier name))
  | next :: rest =>
    if next.token = .opening then
      match rest with
      | [] => ⟨.expression 0, .argument name named next.offset [] :: m.stack, [], m.depth⟩
      | lexeme :: rest =>
        if lexeme.token = .closing then { m with rest }.answer (applied name named [])
        else
          ⟨.expression 0, .argument name named next.offset [] :: m.stack, lexeme :: rest, m.depth⟩
    else m.answer (.ok (.ofIdentifier name))

/-- Reads an operand as far as no expression has to be called for. -/
def readOperand (stop : Nat) (m : Machine) : Machine :=
  match m.rest with
  | [] => m.answer (.error ⟨.missingOperand, stop⟩)
  | ⟨token, offset⟩ :: rest =>
    match token with
    | .number value => { m with rest }.answer (.ok (.number value))
    | .identifier name => { m with rest }.readName name offset
    | .minus => ⟨.expression signPower, .negation :: m.stack, rest, m.depth⟩
    | .opening => ⟨.expression 0, .group offset :: m.stack, rest, m.depth⟩
    | _ => m.answer (.error ⟨.missingOperand, offset⟩)

/-- Takes a connective after `lhs`, if one of enough power follows. -/
def takeConnective (least : Nat) (lhs : Expr) (m : Machine) : Machine :=
  match m.rest with
  | [] => m.answer (.ok lhs)
  | lexeme :: rest =>
    match Connective.ofToken? lexeme.token with
    | none => m.answer (.ok lhs)
    | some connective =>
      if connective.power < least then m.answer (.ok lhs)
      else
        ⟨.expression connective.rightPower, .right least lhs connective :: m.stack, rest, m.depth⟩

/-- Closes the parenthesis of a group. -/
def closeGroup (opened : Nat) (value : Expr) (m : Machine) : Machine :=
  match m.rest with
  | [] => m.answer (.error ⟨.unmatchedParenthesis, opened⟩)
  | lexeme :: rest =>
    if lexeme.token = .closing then { m with rest }.answer (.ok value)
    else m.answer (.error ⟨.expected .closing, lexeme.offset⟩)

/-- Closes the parenthesis of a call after some arguments, or goes on to the next argument. -/
def closeCall (name : String) (named opened : Nat) (args : List Expr) (m : Machine) : Machine :=
  match m.rest with
  | [] => m.answer (.error ⟨.unmatchedParenthesis, opened⟩)
  | lexeme :: rest =>
    if lexeme.token = .closing then { m with rest }.answer (applied name named args)
    else if lexeme.token = .comma then
      ⟨.expression 0, .argument name named opened args :: m.stack, rest, m.depth⟩
    else m.answer (.error ⟨.expected .commaOrClosing, lexeme.offset⟩)

/-- Goes on with the value that a call has waited for. -/
def resume (value : Expr) (m : Machine) : Frame → Machine
  | .expression => { m with depth := m.depth - 1 }.answer (.ok value)
  | .first least => { m with control := .chain least value }
  | .right least lhs connective => { m with control := .chain least (connective.join lhs value) }
  | .negation => m.answer (.ok value.signed)
  | .group opened => m.closeGroup opened value
  | .argument name named opened args => m.closeCall name named opened (args ++ [value])

/-- Passes on the error of the call that was waited for. The level is left as well. -/
def abandon (error : ParseError) (m : Machine) : Frame → Machine
  | .expression => { m with depth := m.depth - 1 }.answer (.error error)
  | _ => m.answer (.error error)

/-- Takes the frame of a finished call from the stack. -/
def finish (result : Except ParseError Expr) (m : Machine) (frame : Frame) : Machine :=
  match result with
  | .ok value => m.resume value frame
  | .error error => m.abandon error frame

/-- One step, if there is anything left to do. -/
def step (limit stop : Nat) (m : Machine) : Option Machine :=
  match m.control with
  | .expression least => some (m.enter limit stop least)
  | .operand => some (m.readOperand stop)
  | .chain least lhs => some (m.takeConnective least lhs)
  | .answer result =>
    match m.stack with
    | [] => none
    | frame :: stack => some ({ m with stack }.finish result frame)

end Machine

/-- What becomes of a formula when an expression is read and some lexemes are left. -/
def conclude (result : Except ParseError Expr) (rest : List Lexeme) : Except ParseError Expr :=
  match result, rest with
  | .error e, _ => .error e
  | .ok e, [] => .ok e
  | .ok _, lexeme :: _ =>
    if lexeme.token = .closing then .error ⟨.unmatchedParenthesis, lexeme.offset⟩
    else .error ⟨.trailingInput, lexeme.offset⟩

end Tradeoff
