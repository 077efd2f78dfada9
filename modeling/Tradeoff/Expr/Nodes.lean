import Tradeoff.Expr.Basic

/-!
# Nodes of expressions

`Expr.nodes` lists an expression with all its subexpressions. What has to hold everywhere in a tree
is said of its nodes: that operators get as many arguments as they take (`Expr.TakesArity`), that
numbers are finite (`Expr.FiniteNumbers`). `Expr.height` measures how deep a tree is.
-/

namespace Tradeoff.Expr

mutual

/-- The expression and all its subexpressions, each before its own subexpressions. -/
def nodes : Expr → List Expr
  | .literal value => [.literal value]
  | .symbol name => [.symbol name]
  | .operation op args => .operation op args :: nodesList args

/-- The nodes of a list of expressions. -/
def nodesList : List Expr → List Expr
  | [] => []
  | arg :: args => nodes arg ++ nodesList args

end

mutual

/-- The number of operations on the longest way from the root to a leaf. -/
def height : Expr → Nat
  | .literal _ | .symbol _ => 0
  | .operation _ args => heightList args + 1

/-- The greatest height in a list of expressions; zero for none. -/
def heightList : List Expr → Nat
  | [] => 0
  | arg :: args => max (height arg) (heightList args)

end

/-- Every operator in the expression takes the number of arguments it has. -/
def TakesArity (e : Expr) : Prop :=
  ∀ op args, .operation op args ∈ e.nodes → op.arity.accepts args.length

/-- Every number in the expression is finite. -/
def FiniteNumbers (e : Expr) : Prop :=
  ∀ value, number value ∈ e.nodes → value.isFinite

theorem self_mem_nodes (e : Expr) : e ∈ e.nodes := by
  cases e <;> simp [nodes]

theorem mem_nodesList {e : Expr} {args : List Expr} :
    e ∈ nodesList args ↔ ∃ arg ∈ args, e ∈ arg.nodes := by
  induction args with
  | nil => simp [nodesList]
  | cons arg args ih => simp [nodesList, ih]

theorem mem_nodes_operation {e : Expr} {op : Operator} {args : List Expr} :
    e ∈ (operation op args).nodes ↔ e = .operation op args ∨ ∃ arg ∈ args, e ∈ arg.nodes := by
  simp [nodes, mem_nodesList]

theorem takesArity_operation {op : Operator} {args : List Expr} :
    (operation op args).TakesArity ↔
      op.arity.accepts args.length ∧ ∀ arg ∈ args, arg.TakesArity := by
  simp only [TakesArity, mem_nodes_operation]
  constructor
  · intro h
    exact ⟨h op args (.inl rfl), fun arg harg op' args' hmem ↦ h op' args' (.inr ⟨arg, harg, hmem⟩)⟩
  · rintro ⟨hop, hargs⟩ op' args' (heq | ⟨arg, harg, hmem⟩)
    · cases heq
      exact hop
    · exact hargs arg harg op' args' hmem

theorem finiteNumbers_operation {op : Operator} {args : List Expr} :
    (operation op args).FiniteNumbers ↔ ∀ arg ∈ args, arg.FiniteNumbers := by
  simp only [FiniteNumbers, mem_nodes_operation]
  constructor
  · intro h arg harg value hmem
    exact h value (.inr ⟨arg, harg, hmem⟩)
  · rintro h value (heq | ⟨arg, harg, hmem⟩)
    · cases heq
    · exact h arg harg value hmem

end Tradeoff.Expr
