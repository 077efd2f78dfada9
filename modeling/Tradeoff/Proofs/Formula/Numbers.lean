import Tradeoff.Proofs.Decimal.Doubles
import Tradeoff.Proofs.Formula.Arity

/-!
# The numbers of a formula

The numbers in an expression that is read from a formula are its numerals, some with the other sign.
So they are finite exactly if the numerals are (`finiteNumbers_iff_of_parse`); a numeral that is too
large for a double stands for an infinity.
-/

namespace Tradeoff

/-! ### Leaves -/

namespace Expr

theorem finiteNumbers_number {x : Float} : (number x).FiniteNumbers ↔ x.isFinite := by
  constructor
  · intro h
    exact h x (self_mem_nodes _)
  · intro hfinite value hmem
    rw [number, nodes, List.mem_singleton] at hmem
    cases hmem
    exact hfinite

theorem finiteNumbers_bool (value : Bool) : (bool value).FiniteNumbers := by
  intro x hmem
  rw [bool, nodes, List.mem_singleton] at hmem
  cases hmem

theorem finiteNumbers_symbol (name : String) : (symbol name).FiniteNumbers := by
  intro x hmem
  rw [nodes, List.mem_singleton] at hmem
  cases hmem

/-- The numbers in an operation on two operands are those of both. -/
theorem finiteNumbers_pair {op : Operator} {a b : Expr} :
    (operation op [a, b]).FiniteNumbers ↔ a.FiniteNumbers ∧ b.FiniteNumbers := by
  rw [finiteNumbers_operation, List.forall_mem_cons, List.forall_mem_singleton]

theorem finiteNumbers_negate {a : Expr} :
    (operation .negate [a]).FiniteNumbers ↔ a.FiniteNumbers := by
  rw [finiteNumbers_operation, List.forall_mem_singleton]

end Expr

/-! ### Building trees -/

/-- The numbers in an extended operation are those of its operands. -/
theorem Extended.finiteNumbers_iff {op : Operator} {a b e : Expr} (h : Extended op a b e) :
    e.FiniteNumbers ↔ a.FiniteNumbers ∧ b.FiniteNumbers := by
  cases h with
  | append =>
    rw [Expr.finiteNumbers_operation, Expr.finiteNumbers_operation, List.forall_mem_append,
      List.forall_mem_singleton]
  | pair => exact Expr.finiteNumbers_pair

/-- A number with the other sign is as finite as it was. -/
theorem Negated.finiteNumbers_iff {a e : Expr} (h : Negated a e) :
    e.FiniteNumbers ↔ a.FiniteNumbers := by
  cases h with
  | number => rw [Expr.finiteNumbers_number, Expr.finiteNumbers_number, isFinite_neg]
  | operation => exact Expr.finiteNumbers_negate

/-- A name is a symbol or a truth value. -/
theorem Named.finiteNumbers {name : String} {e : Expr} (h : Named name e) : e.FiniteNumbers := by
  cases h with
  | true | false => exact Expr.finiteNumbers_bool _
  | symbol => exact Expr.finiteNumbers_symbol name

/-- The numbers in a call are those of its arguments. -/
theorem Called.finiteNumbers_iff {name : String} {args : List Expr} {e : Expr}
    (h : Called name args e) : e.FiniteNumbers ↔ ∀ arg ∈ args, arg.FiniteNumbers := by
  cases h with
  | operation => exact Expr.finiteNumbers_operation

/-! ### Derivations -/

/-- All numerals among the tokens are finite. -/
def FiniteNumerals (used : List Token) : Prop := ∀ value, Token.number value ∈ used → value.isFinite

theorem finiteNumerals_append {used more : List Token} :
    FiniteNumerals (used ++ more) ↔ FiniteNumerals used ∧ FiniteNumerals more := by
  simp only [FiniteNumerals, List.mem_append, or_imp, forall_and]

theorem finiteNumerals_cons {token : Token} (h : ∀ value, token ≠ .number value)
    {used : List Token} : FiniteNumerals (token :: used) ↔ FiniteNumerals used := by
  have hne (value : Float) : Token.number value ≠ token := (h value).symm
  simp only [FiniteNumerals, List.mem_cons, hne, false_or]

/-- The tokens up to the rest have finite numerals exactly if the property holds. -/
def UsedUpTo (input rest : List Token) (finite : Prop) : Prop :=
  ∃ used, input = used ++ rest ∧ (finite ↔ FiniteNumerals used)

namespace UsedUpTo

variable {input middle rest : List Token} {token : Token} {finite finite' both : Prop}

/-- The property may be told in another way. -/
theorem congr (h : UsedUpTo input rest finite) (hfinite : finite' ↔ finite) :
    UsedUpTo input rest finite' := by
  obtain ⟨used, rfl, hused⟩ := h
  exact ⟨used, rfl, hfinite.trans hused⟩

/-- Two parts with a token between them that is no numeral. -/
theorem join (h : UsedUpTo input (token :: middle) finite) (h' : UsedUpTo middle rest finite')
    (htoken : ∀ value, token ≠ .number value) (hboth : both ↔ finite ∧ finite') :
    UsedUpTo input rest both := by
  obtain ⟨used, rfl, hused⟩ := h
  obtain ⟨used', rfl, hused'⟩ := h'
  refine ⟨used ++ token :: used', by simp, ?_⟩
  rw [hboth, hused, hused', finiteNumerals_append, finiteNumerals_cons htoken]

/-- A token before the rest that is no numeral. -/
theorem cons (h : UsedUpTo input rest finite) (htoken : ∀ value, token ≠ .number value) :
    UsedUpTo (token :: input) rest finite := by
  obtain ⟨used, rfl, hused⟩ := h
  exact ⟨token :: used, rfl, hused.trans (finiteNumerals_cons htoken).symm⟩

/-- A token after the part that is no numeral. -/
theorem concat (h : UsedUpTo input (token :: rest) finite)
    (htoken : ∀ value, token ≠ .number value) : UsedUpTo input rest finite := by
  obtain ⟨used, rfl, hused⟩ := h
  refine ⟨used ++ [token], by simp, ?_⟩
  have hnone : FiniteNumerals [] := fun _ ↦ nofun
  rw [hused, finiteNumerals_append, finiteNumerals_cons htoken, and_iff_left hnone]

theorem nil (h : finite) : UsedUpTo rest rest finite :=
  ⟨[], rfl, iff_of_true h fun _ ↦ nofun⟩

end UsedUpTo

mutual

/-- By induction on the derivation: a numeral is the number that it is read as, and trees have the
numbers of their parts. -/
theorem Derives.usedUpTo {n : Nat} {layer : Layer} {input rest : List Token} {e : Expr} :
    Derives n layer input e rest → UsedUpTo input rest e.FiniteNumbers
  | .ofProduct h | .ofSigned h | .ofPower h | .ofAtom h => h.usedUpTo
  | .add ha hb he => ha.usedUpTo.join hb.usedUpTo (by simp) he.finiteNumbers_iff
  | .subtract ha hb he =>
    ha.usedUpTo.join (hb.usedUpTo.congr Expr.finiteNumbers_negate) (by simp) he.finiteNumbers_iff
  | .multiply ha hb he => ha.usedUpTo.join hb.usedUpTo (by simp) he.finiteNumbers_iff
  | .divide ha hb => ha.usedUpTo.join hb.usedUpTo (by simp) Expr.finiteNumbers_pair
  | .negative ha he => (ha.usedUpTo.congr he.finiteNumbers_iff).cons (by simp)
  | .power ha hb => ha.usedUpTo.join hb.usedUpTo (by simp) Expr.finiteNumbers_pair
  | .number => ⟨[_], rfl, by simp [FiniteNumerals, Expr.finiteNumbers_number]⟩
  | .name hname => (UsedUpTo.nil hname.finiteNumbers).cons (by simp)
  | .callNone hcalled => by
    have hfinite := hcalled.finiteNumbers_iff.mpr nofun
    exact (((UsedUpTo.nil hfinite).cons (by simp)).cons (by simp)).cons (by simp)
  | .call hargs hcalled =>
    (((hargs.usedUpTo.congr hcalled.finiteNumbers_iff).concat (by simp)).cons (by simp)).cons
      (by simp)
  | .group h => (h.usedUpTo.concat (by simp)).cons (by simp)

/-- The numerals among the tokens of arguments are the numbers in them. -/
theorem DerivesArguments.usedUpTo {n : Nat} {input rest : List Token} {args : List Expr} :
    DerivesArguments n input args rest →
      UsedUpTo input rest (∀ arg ∈ args, arg.FiniteNumbers)
  | .one h => h.usedUpTo.congr List.forall_mem_singleton
  | .more h hmore => h.usedUpTo.join hmore.usedUpTo (by simp) List.forall_mem_cons

end

/-- The numbers in an expression are finite exactly if the numerals of its formula are. -/
theorem finiteNumbers_iff_of_parse {formula : String} {lexemes : List Lexeme} {e : Expr}
    (hscan : scan formula = .ok lexemes) (h : parse formula = .ok e) :
    e.FiniteNumbers ↔ FiniteNumerals (tokens lexemes) := by
  rw [parse_eq_parseLexemes hscan] at h
  obtain ⟨n, -, hderives⟩ := parseLexemes_eq_ok_iff_derives.mp h
  obtain ⟨used, hused, hfinite⟩ := hderives.usedUpTo
  rw [List.append_nil] at hused
  rwa [hused]

end Tradeoff
