import Tradeoff.Expr.Nodes
import Tradeoff.Proofs.Formula.Grammar

/-!
# Formulas have the arguments they need

In an expression that is read from a formula every operator has as many arguments as it takes
(`takesArity_of_parse`). A call is refused otherwise, and the trees that the grammar builds for
connectives and signs have the right number by themselves: a sum or product of two or more operands
takes another one.
-/

namespace Tradeoff

namespace Expr

theorem takesArity_literal (value : Literal) : (literal value).TakesArity := by
  intro op args hmem
  rw [nodes, List.mem_singleton] at hmem
  cases hmem

theorem takesArity_symbol (name : String) : (symbol name).TakesArity := by
  intro op args hmem
  rw [nodes, List.mem_singleton] at hmem
  cases hmem

/-- An operation on two operands, if its operator takes two. -/
theorem takesArity_pair {op : Operator} {a b : Expr} (h : op.arity.accepts 2) (ha : a.TakesArity)
    (hb : b.TakesArity) : (operation op [a, b]).TakesArity := by
  rw [takesArity_operation, List.forall_mem_cons, List.forall_mem_singleton]
  exact ⟨h, ha, hb⟩

theorem takesArity_negate {a : Expr} (h : a.TakesArity) : (operation .negate [a]).TakesArity := by
  rw [takesArity_operation, List.forall_mem_singleton]
  exact ⟨rfl, h⟩

end Expr

/-! ### Building trees -/

/-- An operator of two or more operands takes one more. -/
theorem Extended.takesArity {op : Operator} {a b e : Expr} (h : Extended op a b e)
    (hop : op.arity = .atLeast 2) (ha : a.TakesArity) (hb : b.TakesArity) : e.TakesArity := by
  cases h with
  | append =>
    rw [Expr.takesArity_operation] at ha ⊢
    rw [hop] at ha ⊢
    refine ⟨?_, fun arg harg ↦ ?_⟩
    · have hlength := ha.1
      simp only [Arity.accepts, decide_eq_true_eq, List.length_append, List.length_singleton]
        at hlength ⊢
      omega
    · rcases List.mem_append.mp harg with harg | harg
      · exact ha.2 arg harg
      · exact List.mem_singleton.mp harg ▸ hb
  | pair => exact Expr.takesArity_pair (by rw [hop]; rfl) ha hb

/-- A negated operand is a number or a negation. -/
theorem Negated.takesArity {a e : Expr} (h : Negated a e) (ha : a.TakesArity) : e.TakesArity := by
  cases h with
  | number => exact Expr.takesArity_literal _
  | operation => exact Expr.takesArity_negate ha

/-- A name is a symbol or a truth value. -/
theorem Named.takesArity {name : String} {e : Expr} (h : Named name e) : e.TakesArity := by
  cases h with
  | true | false => exact Expr.takesArity_literal _
  | symbol => exact Expr.takesArity_symbol name

/-- A call is refused if its operator does not take its arguments. -/
theorem Called.takesArity {name : String} {args : List Expr} {e : Expr} (h : Called name args e)
    (hargs : ∀ arg ∈ args, arg.TakesArity) : e.TakesArity := by
  cases h with
  | operation _ haccepts => exact Expr.takesArity_operation.mpr ⟨haccepts, hargs⟩

/-! ### Derivations -/

mutual

/-- By induction on the derivation, with the trees that its rules build. -/
theorem Derives.takesArity {n : Nat} {layer : Layer} {input rest : List Token} {e : Expr} :
    Derives n layer input e rest → e.TakesArity
  | .ofProduct h | .ofSigned h | .ofPower h | .ofAtom h | .group h => h.takesArity
  | .add ha hb he => he.takesArity rfl ha.takesArity hb.takesArity
  | .subtract ha hb he => he.takesArity rfl ha.takesArity (Expr.takesArity_negate hb.takesArity)
  | .multiply ha hb he => he.takesArity rfl ha.takesArity hb.takesArity
  | .divide ha hb => Expr.takesArity_pair rfl ha.takesArity hb.takesArity
  | .negative ha he => he.takesArity ha.takesArity
  | .power ha hb => Expr.takesArity_pair rfl ha.takesArity hb.takesArity
  | .number => Expr.takesArity_literal _
  | .name hname => hname.takesArity
  | .callNone hcalled => hcalled.takesArity fun _ hmem ↦ absurd hmem List.not_mem_nil
  | .call hargs hcalled => hcalled.takesArity hargs.takesArity

/-- Every argument has the arguments it needs. -/
theorem DerivesArguments.takesArity {n : Nat} {input rest : List Token} {args : List Expr} :
    DerivesArguments n input args rest → ∀ arg ∈ args, arg.TakesArity
  | .one h => List.forall_mem_singleton.mpr h.takesArity
  | .more h hmore => List.forall_mem_cons.mpr ⟨h.takesArity, hmore.takesArity⟩

end

theorem takesArity_of_parse {formula : String} {e : Expr} (h : parse formula = .ok e) :
    e.TakesArity := by
  rcases hscan : scan formula with error | lexemes
  · rw [parse, parseWithin, hscan] at h
    cases h
  · rw [parse_eq_parseLexemes hscan] at h
    obtain ⟨n, -, hderives⟩ := parseLexemes_eq_ok_iff_derives.mp h
    exact hderives.takesArity

end Tradeoff
