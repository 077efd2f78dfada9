import Tradeoff.Json.Text
import Tradeoff.Operator
import Tradeoff.SymbolMap

/-!
# Expressions

An expression is a tree of literals, symbols and operations. Trees are built either unchecked, from
the constructors, or through `Expr.operation?` and `Expr.call?`, which refuse a number of arguments
that the operator does not take (and, for `call?`, a name that no operator has).

Equality of expressions (`==`) compares numbers as numbers: the two zeros are equal, and what is not
a number differs from itself.
-/

namespace Tradeoff

/-- A literal value, in an expression or of a constant. -/
inductive Literal where
  /-- A number. -/
  | number (value : Float)
  /-- A truth value. -/
  | bool (value : Bool)
deriving BEq, DecidableEq, Inhabited

/-- The value of a literal that is a number. -/
def Literal.number? : Literal → Option Float
  | number value => some value
  | bool _ => none

/-- An expression. -/
inductive Expr where
  /-- A literal value. -/
  | literal (value : Literal)
  /-- What the symbol stands for. -/
  | symbol (name : String)
  /-- An operator applied to arguments. -/
  | operation (op : Operator) (args : List Expr)
deriving Inhabited

/-- Why a tree could not be built. -/
inductive MalformedExpr where
  /-- No operator has the name. -/
  | unknownOperator (name : String)
  /-- The operator does not take so many arguments. -/
  | arity (op : Operator) (found : Nat)
  /-- An array without a head. -/
  | emptyArray
  /-- An array whose head is no string. -/
  | notAName (head : Json)
  /-- A value that stands for no expression. -/
  | unexpectedValue (value : Json)

/-- The message of the error. -/
def MalformedExpr.message : MalformedExpr → String
  | unknownOperator name => "unknown operator `" ++ name ++ "`"
  | arity op found =>
    "`" ++ op.name ++ "` takes " ++ op.arity.text ++ " argument(s), got " ++ toString found
  | emptyArray => "invalid array form: empty array"
  | notAName head =>
    "invalid array form: expected an operator name, found `" ++ head.text ++ "`"
  | unexpectedValue value => "invalid array form: unexpected value `" ++ value.text ++ "`"

namespace Expr

/-! ### Building -/

/-- A number. -/
def number (value : Float) : Expr := .literal (.number value)

/-- A truth value. -/
def bool (value : Bool) : Expr := .literal (.bool value)

/-- The sum of two expressions. -/
def add (lhs rhs : Expr) : Expr := .operation .add [lhs, rhs]

/-- The product of two expressions. -/
def multiply (lhs rhs : Expr) : Expr := .operation .multiply [lhs, rhs]

/-- The quotient of two expressions. -/
def divide (lhs rhs : Expr) : Expr := .operation .divide [lhs, rhs]

/-- One expression to the power of another. -/
def power (base exponent : Expr) : Expr := .operation .power [base, exponent]

/-- The negated expression. -/
def negate (operand : Expr) : Expr := .operation .negate [operand]

/-- A component of a vector variable, counted from one. -/
def component (symbol : String) (index : Nat) : Expr :=
  .operation .component [.symbol symbol, number (Float.ofNat index)]

/-- An operation whose number of arguments is checked. -/
def operation? (op : Operator) (args : List Expr) : Except MalformedExpr Expr :=
  if op.arity.accepts args.length then .ok (.operation op args)
  else .error (.arity op args.length)

/-- An operation by the name of its operator. -/
def call? (name : String) (args : List Expr) : Except MalformedExpr Expr :=
  match Operator.ofName? name with
  | none => .error (.unknownOperator name)
  | some op => operation? op args

/-! ### Equality -/

mutual

/-- Whether two expressions are the same tree over equal literals. -/
def beq : Expr → Expr → Bool
  | .literal a, .literal b => a == b
  | .symbol a, .symbol b => a == b
  | .operation op args, .operation op' args' => op == op' && beqList args args'
  | _, _ => false

/-- Whether two lists hold the same expressions in the same order. -/
def beqList : List Expr → List Expr → Bool
  | [], [] => true
  | a :: as, b :: bs => beq a b && beqList as bs
  | _, _ => false

end

instance : BEq Expr := ⟨beq⟩

/-! ### Symbols -/

mutual

/-- The symbols an expression mentions, from left to right, as often as it does. -/
def mentions : Expr → List String
  | .literal _ => []
  | .symbol name => [name]
  | .operation _ args => mentionsList args

/-- The symbols a list of expressions mentions. -/
def mentionsList : List Expr → List String
  | [] => []
  | arg :: args => mentions arg ++ mentionsList args

end

theorem mem_mentionsList {symbol : String} {args : List Expr} :
    symbol ∈ mentionsList args ↔ ∃ arg ∈ args, symbol ∈ arg.mentions := by
  induction args with
  | nil => simp [mentionsList]
  | cons arg args ih => simp [mentionsList, ih]

/-- The symbols an expression mentions, in order and each once. -/
def symbols (e : Expr) : List String := sortSymbols e.mentions

end Expr

end Tradeoff
