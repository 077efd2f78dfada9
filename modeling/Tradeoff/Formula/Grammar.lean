import Tradeoff.Formula.Layer

/-!
# The grammar of formulas

The grammar says which expression a sequence of tokens spells:

* a sum is a product, or a sum with a term added or subtracted;
* a product is a signed operand, or a product with a factor multiplied or dividing;
* a signed operand is a power, or a minus sign before a signed operand;
* a power is an atom, or an atom with a signed operand for its exponent;
* an atom is a number, a name, a call or a group in parentheses.

It says nothing about how to find the expression or how to report an error. It measures how deep
operands nest, but no rule asks for any depth.

Trees are built as the rules say: sums and products with more than two operands are one operation
(`Extended`), a minus sign before a number is the number of the other sign (`Negated`), the names of
the truth values stand for them (`Named`), and a call needs an operator that takes its arguments
(`Called`).
-/

namespace Tradeoff

/-! ### Building trees -/

/-- The third expression is the first with the second as one more operand of the operator. -/
inductive Extended (op : Operator) : Expr → Expr → Expr → Prop where
  /-- An operation of the operator takes the operand at its end. -/
  | append {args : List Expr} {b : Expr} :
      Extended op (.operation op args) b (.operation op (args ++ [b]))
  /-- Anything else is the first of two operands. -/
  | pair {a b : Expr} : (∀ args, a ≠ .operation op args) → Extended op a b (.operation op [a, b])

/-- The second expression is the first with a minus sign before it. -/
inductive Negated : Expr → Expr → Prop where
  /-- A number changes its sign. -/
  | number {value : Float} : Negated (.number value) (.number (-value))
  /-- Anything else is negated by an operation. -/
  | operation {a : Expr} : (∀ value, a ≠ .number value) → Negated a (.operation .negate [a])

/-- The expression is what the name stands for where it is not called. -/
inductive Named : String → Expr → Prop where
  /-- One truth value. -/
  | true : Named "true" (.bool .true)
  /-- The other truth value. -/
  | false : Named "false" (.bool .false)
  /-- Any other name is a symbol. -/
  | symbol {name : String} : name ≠ "true" → name ≠ "false" → Named name (.symbol name)

/-- The expression is the call of the name with the arguments: the operator of the name takes that
many. -/
inductive Called : String → List Expr → Expr → Prop where
  /-- The operation on the arguments. -/
  | operation {name : String} {args : List Expr} {op : Operator} :
      Operator.ofName? name = some op → op.arity.accepts args.length →
      Called name args (.operation op args)

/-! ### Derivations -/

mutual

/-- The tokens of `input` before `rest` spell the expression at the layer. Operands nest `depth`
levels: everything read inside something else, after a connective or a minus sign, in parentheses or
as an argument, is one level deeper. -/
inductive Derives : (depth : Nat) → (layer : Layer) → (input : List Token) → Expr →
    (rest : List Token) → Prop where
  /-- A product is a sum. -/
  | ofProduct {n : Nat} {input rest : List Token} {e : Expr} :
      Derives n .product input e rest → Derives n .sum input e rest
  /-- A term is added to a sum. -/
  | add {n m : Nat} {input middle rest : List Token} {a b e : Expr} :
      Derives n .sum input a (.plus :: middle) → Derives m .product middle b rest →
      Extended .add a b e → Derives (max n (m + 1)) .sum input e rest
  /-- A term is subtracted from a sum: its negation is added. -/
  | subtract {n m : Nat} {input middle rest : List Token} {a b e : Expr} :
      Derives n .sum input a (.minus :: middle) → Derives m .product middle b rest →
      Extended .add a (.operation .negate [b]) e → Derives (max n (m + 1)) .sum input e rest
  /-- A signed operand is a product. -/
  | ofSigned {n : Nat} {input rest : List Token} {e : Expr} :
      Derives n .signed input e rest → Derives n .product input e rest
  /-- A product is multiplied by a factor. -/
  | multiply {n m : Nat} {input middle rest : List Token} {a b e : Expr} :
      Derives n .product input a (.star :: middle) → Derives m .signed middle b rest →
      Extended .multiply a b e → Derives (max n (m + 1)) .product input e rest
  /-- A product is divided by a factor. -/
  | divide {n m : Nat} {input middle rest : List Token} {a b : Expr} :
      Derives n .product input a (.slash :: middle) → Derives m .signed middle b rest →
      Derives (max n (m + 1)) .product input (.operation .divide [a, b]) rest
  /-- A power is a signed operand. -/
  | ofPower {n : Nat} {input rest : List Token} {e : Expr} :
      Derives n .power input e rest → Derives n .signed input e rest
  /-- A minus sign stands before a signed operand. -/
  | negative {n : Nat} {input rest : List Token} {a e : Expr} :
      Derives n .signed input a rest → Negated a e →
        Derives (n + 1) .signed (.minus :: input) e rest
  /-- An atom is a power. -/
  | ofAtom {n : Nat} {input rest : List Token} {e : Expr} :
      Derives n .atom input e rest → Derives n .power input e rest
  /-- An atom is raised to a signed operand. -/
  | power {n m : Nat} {input middle rest : List Token} {a b : Expr} :
      Derives n .atom input a (.caret :: middle) → Derives m .signed middle b rest →
      Derives (max n (m + 1)) .power input (.operation .power [a, b]) rest
  /-- A number. -/
  | number {value : Float} {rest : List Token} :
      Derives 1 .atom (.number value :: rest) (.number value) rest
  /-- A truth value or a symbol. -/
  | name {name : String} {rest : List Token} {e : Expr} :
      Named name e → Derives 1 .atom (.identifier name :: rest) e rest
  /-- A call without arguments. -/
  | callNone {name : String} {rest : List Token} {e : Expr} :
      Called name [] e → Derives 1 .atom (.identifier name :: .opening :: .closing :: rest) e rest
  /-- A call with arguments. -/
  | call {n : Nat} {name : String} {input rest : List Token} {args : List Expr} {e : Expr} :
      DerivesArguments n input args (.closing :: rest) → Called name args e →
      Derives (n + 1) .atom (.identifier name :: .opening :: input) e rest
  /-- A group in parentheses. -/
  | group {n : Nat} {input rest : List Token} {e : Expr} :
      Derives n .sum input e (.closing :: rest) → Derives (n + 1) .atom (.opening :: input) e rest

/-- The tokens of `input` before `rest` spell sums with commas between them. -/
inductive DerivesArguments : (depth : Nat) → (input : List Token) → List Expr →
    (rest : List Token) → Prop where
  /-- One argument. -/
  | one {n : Nat} {input rest : List Token} {arg : Expr} :
      Derives n .sum input arg rest → DerivesArguments n input [arg] rest
  /-- An argument, a comma and more arguments. -/
  | more {n m : Nat} {input middle rest : List Token} {arg : Expr} {args : List Expr} :
      Derives n .sum input arg (.comma :: middle) → DerivesArguments m middle args rest →
      DerivesArguments (max n m) input (arg :: args) rest

end

/-- The tokens, all of them, spell the expression. -/
def Spells (tokens : List Token) (e : Expr) : Prop := ∃ depth, Derives depth .sum tokens e []

end Tradeoff
