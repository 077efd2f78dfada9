import Tradeoff.Formula.Token
import Tradeoff.Expr.Basic

/-!
# Layers of formulas

Formulas are layered: a sum has products for its terms, a product has signed operands for its
factors, a signed operand is a power, and a power has an atom for its base. The layers decide both
where the printed form of an expression needs parentheses and how far an operand reaches when a
formula is read.
-/

namespace Tradeoff

/-- A layer, from the loosest to the tightest. -/
inductive Layer where
  /-- Sums and differences. -/
  | sum
  /-- Products and quotients. -/
  | product
  /-- Operands that may carry a minus sign. -/
  | signed
  /-- Powers. -/
  | power
  /-- Literals, symbols, calls and groups. -/
  | atom
deriving DecidableEq, Repr

namespace Layer

/-- The place of the layer, counted from the loosest. -/
def rank : Layer → Nat
  | sum => 0
  | product => 1
  | signed => 2
  | power => 3
  | atom => 4

instance : LE Layer := ⟨fun a b ↦ a.rank ≤ b.rank⟩

instance (a b : Layer) : Decidable (a ≤ b) := Nat.decLe a.rank b.rank

end Layer

/-- The layer of an operation when it is printed. -/
def Operator.layer : Operator → Layer
  | .add => .sum
  | .multiply | .divide => .product
  | .negate => .signed
  | .power => .power
  | _ => .atom

/-- The layer of an expression when it is printed. A number with a minus sign is a signed operand.
-/
def Expr.layer : Expr → Layer
  | .literal (.number value) => if carriesMinus value then .signed else .atom
  | .literal (.bool _) | .symbol _ => .atom
  | .operation op _ => op.layer

/-- An operation between two operands of a formula. -/
inductive Connective where
  /-- A term is added. -/
  | plus
  /-- A term is subtracted. -/
  | minus
  /-- A factor is multiplied. -/
  | times
  /-- A factor divides. -/
  | dividedBy
  /-- An exponent is applied. -/
  | caret
deriving DecidableEq, Repr

namespace Connective

/-- The connective that a token is after a complete operand. -/
def ofToken? : Token → Option Connective
  | .plus => some plus
  | .minus => some minus
  | .star => some times
  | .slash => some dividedBy
  | .caret => some caret
  | _ => none

/-- The loosest layer in which the connective may follow an operand. -/
def layer : Connective → Layer
  | plus | minus => .sum
  | times | dividedBy => .product
  | caret => .power

/-- The layer of the operand after the connective. It is the next tighter one, so that sums and
products group to the left; an exponent is a signed operand, which may be a power again, so that
powers group to the right. -/
def right : Connective → Layer
  | plus | minus => .product
  | times | dividedBy => .signed
  | caret => .signed

/-- The operation with one more argument, if `lhs` is such an operation already, or else the
operation on the two operands. -/
def extend (op : Operator) (lhs rhs : Expr) : Expr :=
  match lhs with
  | .operation op' args =>
    if op' = op then .operation op (args ++ [rhs]) else .operation op [lhs, rhs]
  | lhs => .operation op [lhs, rhs]

/-- The expression that joins two operands. A difference is a sum with a negated term. -/
def join : Connective → Expr → Expr → Expr
  | plus, lhs, rhs => extend .add lhs rhs
  | minus, lhs, rhs => extend .add lhs (.negate rhs)
  | times, lhs, rhs => extend .multiply lhs rhs
  | dividedBy, lhs, rhs => .divide lhs rhs
  | caret, lhs, rhs => .power lhs rhs

end Connective

/-- The negated operand: for a number the number of the other sign. -/
def Expr.signed : Expr → Expr
  | .literal (.number value) => .number (-value)
  | operand => .negate operand

/-- What an identifier stands for where no parenthesis follows. -/
def Expr.ofIdentifier (name : String) : Expr :=
  if name = "true" then .bool true
  else if name = "false" then .bool false
  else .symbol name

end Tradeoff
