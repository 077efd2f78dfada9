import Tradeoff.Formula.Normal
import Tradeoff.Proofs.Formula.Fragment

/-!
# Operands linked by connectives

Sums, products, quotients and powers print alike: the first operand, and then each further one after
a connective. A negated term of a sum is linked by a minus sign; every other operand by the
connective of the operator (`Connective.link`). The printed form, its levels and its normal form
each go along the operands (`pieces_linked`, `levels_linked`, `normalize_linked`), and
`Printable.induction` is the induction that goes with them.
-/

namespace Tradeoff

/-- The connective that prints an operator. -/
def Operator.connective? : Operator → Option Connective
  | .add => some .plus
  | .multiply => some .times
  | .divide => some .dividedBy
  | .power => some .caret
  | _ => none

/-- Sums are what plus signs print. -/
theorem Operator.eq_add_iff_eq_plus {op : Operator} {c : Connective} (h : op.connective? = some c) :
    op = .add ↔ c = .plus := by
  constructor
  · rintro rfl
    exact (Option.some.inj h).symm
  · rintro rfl
    cases op <;> first | rfl | cases h

/-- What no connective prints is no sum. -/
theorem Operator.ne_add_of_connective?_eq_none {op : Operator} (h : op.connective? = none) :
    op ≠ .add := by
  rintro rfl
  cases h

/-- How an operand is linked to those before it: the connective and what follows it. -/
def Connective.link : Connective → Expr → Connective × Expr
  | .plus, .operation .negate [arg] => (.minus, arg)
  | c, arg => (c, arg)

namespace Expr

/-! ### Levels -/

mutual

/-- How many levels the operands of the printed form of an expression nest. -/
def levels : Expr → Nat
  | .literal (.number value) => if carriesMinus value then 2 else 1
  | .literal (.bool _) => 1
  | .symbol _ => 1
  | .operation op args =>
    match op, args with
    | .add, first :: rest => max (levelsInPlace .sum first (levels first)) (termLevels rest)
    | .multiply, first :: rest =>
      max (levelsInPlace .product first (levels first)) (factorLevels rest)
    | .divide, [lhs, rhs] =>
      max (levelsInPlace .product lhs (levels lhs)) (levelsInPlace .signed rhs (levels rhs) + 1)
    | .negate, [arg] => levelsInPlace .signed arg (levels arg) + 1
    | .power, [base, exponent] =>
      max (levelsInPlace .atom base (levels base))
        (levelsInPlace .signed exponent (levels exponent) + 1)
    | _, args => argumentLevels args + 1

/-- The levels of the terms after the first. -/
def termLevels : List Expr → Nat
  | [] => 0
  | .operation .negate [arg] :: rest =>
    max (levelsInPlace .product arg (levels arg) + 1) (termLevels rest)
  | arg :: rest => max (levelsInPlace .product arg (levels arg) + 1) (termLevels rest)

/-- The levels of the factors after the first. -/
def factorLevels : List Expr → Nat
  | [] => 0
  | arg :: rest => max (levelsInPlace .signed arg (levels arg) + 1) (factorLevels rest)

/-- The levels of the arguments of a call. -/
def argumentLevels : List Expr → Nat
  | [] => 0
  | arg :: rest => max (levels arg) (argumentLevels rest)

end

/-! ### One operand after another -/

/-- The pieces of an operand after the first, its connective included. -/
def linkPieces (c : Connective) (arg : Expr) : List Piece :=
  ⟨(c.link arg).1.token, .around⟩ ::
    inPlace (c.link arg).1.right (c.link arg).2 (pieces (c.link arg).2)

/-- The levels of an operand after the first. -/
def linkLevels (c : Connective) (arg : Expr) : Nat :=
  levelsInPlace (c.link arg).1.right (c.link arg).2 (levels (c.link arg).2) + 1

/-- What is left of the operand joined with the normal form of the operand. -/
def linkNormal (c : Connective) (lhs arg : Expr) : Expr :=
  (c.link arg).1.join lhs (normalize (c.link arg).2)

/-- A link takes the minus sign of a negated term, and nothing else. -/
theorem link_eq (c : Connective) (arg : Expr) :
    (∃ a, c = .plus ∧ arg = .operation .negate [a] ∧ c.link arg = (.minus, a)) ∨
      ((c = .plus → ∀ a, arg ≠ .operation .negate [a]) ∧ c.link arg = (c, arg)) := by
  unfold Connective.link
  split
  · next a => exact .inl ⟨a, rfl, rfl, rfl⟩
  · next hne => exact .inr ⟨fun hc a harg ↦ hne a hc harg, rfl⟩

/-- The pieces of terms are those of links by plus signs. -/
theorem termPieces_eq (rest : List Expr) : termPieces rest = rest.flatMap (linkPieces .plus) := by
  induction rest with
  | nil => rw [termPieces, List.flatMap_nil]
  | cons arg rest ih =>
    rw [List.flatMap_cons, ← ih]
    -- The pieces of terms are defined by cases as links are: on a negation, or not.
    rcases link_eq .plus arg with ⟨a, -, rfl, hlink⟩ | ⟨hne, hlink⟩
    · rw [termPieces, linkPieces, hlink]
      rfl
    · rw [termPieces, linkPieces, hlink]
      · rfl
      · exact hne rfl

/-- The pieces of factors are those of links by multiplication signs. -/
theorem factorPieces_eq (rest : List Expr) :
    factorPieces rest = rest.flatMap (linkPieces .times) := by
  induction rest with
  | nil => rw [factorPieces, List.flatMap_nil]
  | cons arg rest ih =>
    rw [List.flatMap_cons, ← ih, factorPieces]
    rfl

/-- The levels of terms are those of links. -/
theorem max_termLevels (rest : List Expr) (n : Nat) :
    max n (termLevels rest) = rest.foldl (fun n arg ↦ max n (linkLevels .plus arg)) n := by
  induction rest generalizing n with
  | nil => simp [termLevels]
  | cons arg rest ih =>
    have hcons : termLevels (arg :: rest) = max (linkLevels .plus arg) (termLevels rest) := by
      rcases link_eq .plus arg with ⟨a, -, rfl, hlink⟩ | ⟨hne, hlink⟩
      · rw [termLevels, linkLevels, hlink]
        rfl
      · rw [termLevels, linkLevels, hlink]
        · rfl
        · exact hne rfl
    rw [List.foldl_cons, ← ih, hcons]
    omega

/-- The levels of factors are those of links. -/
theorem max_factorLevels (rest : List Expr) (n : Nat) :
    max n (factorLevels rest) = rest.foldl (fun n arg ↦ max n (linkLevels .times arg)) n := by
  induction rest generalizing n with
  | nil => simp [factorLevels]
  | cons arg rest ih =>
    have hcons : factorLevels (arg :: rest) = max (linkLevels .times arg) (factorLevels rest) := by
      rw [factorLevels]
      rfl
    rw [List.foldl_cons, ← ih, hcons]
    omega

/-- An operation is extended operand by operand. -/
theorem foldl_extend_operation (op : Operator) (args rest : List Expr) :
    rest.foldl (Connective.extend op) (.operation op args) = .operation op (args ++ rest) := by
  induction rest generalizing args with
  | nil => rw [List.foldl_nil, List.append_nil]
  | cons arg rest ih =>
    have hextend :
        Connective.extend op (.operation op args) arg = .operation op (args ++ [arg]) := by
      simp [Connective.extend]
    rw [List.foldl_cons, hextend, ih, List.append_assoc, List.singleton_append]

/-- Anything but a sum at the start of a sum stays, and so for products. -/
theorem assemble_of_ne {op : Operator} (hop : op = .add ∨ op = .multiply) {lhs : Expr}
    (hlhs : ∀ args, lhs ≠ .operation op args) (rest : List Expr) :
    assemble op (lhs :: rest) = .operation op (lhs :: rest) := by
  rcases hop with rfl | rfl <;> unfold assemble <;> split
  · next heq =>
    obtain ⟨rfl, -⟩ := List.cons.inj heq
    exact absurd rfl (hlhs _)
  · next heq _ => cases heq
  · next heq _ => cases heq
  · rfl
  · next heq _ => cases heq
  · next heq =>
    obtain ⟨rfl, -⟩ := List.cons.inj heq
    exact absurd rfl (hlhs _)
  · next heq _ => cases heq
  · rfl

/-- Taking in one operand after another makes one operation of them all. -/
theorem foldl_extend {op : Operator} (hop : op = .add ∨ op = .multiply) (lhs arg : Expr)
    (rest : List Expr) :
    (arg :: rest).foldl (Connective.extend op) lhs = assemble op (lhs :: arg :: rest) := by
  -- The first operand is such an operation and takes in the others, or makes one with the second.
  by_cases hlhs : ∃ args, lhs = .operation op args
  · obtain ⟨args, rfl⟩ := hlhs
    rw [foldl_extend_operation]
    rcases hop with rfl | rfl <;> rfl
  · have hne : ∀ args, lhs ≠ .operation op args := fun args h ↦ hlhs ⟨args, h⟩
    have hextend : Connective.extend op lhs arg = .operation op [lhs, arg] :=
      (extended_iff.mp (.pair hne)).symm
    rw [List.foldl_cons, hextend, foldl_extend_operation, assemble_of_ne hop hne]
    rfl

/-! ### Normal forms of operands -/

/-- The normal form of a term of a sum after the first. -/
def normalizeTerm : Expr → Expr
  | .operation .negate args => .operation .negate (normalizeList args)
  | term => normalize term

/-- Terms are normalized one by one. -/
theorem normalizeTerms_eq_map (terms : List Expr) :
    normalizeTerms terms = terms.map normalizeTerm := by
  induction terms with
  | nil => rw [normalizeTerms, List.map_nil]
  | cons term terms ih =>
    unfold normalizeTerms
    split
    · next heq => cases heq
    · next heq =>
      cases heq
      rw [List.map_cons, ← ih, normalizeTerm]
    · next hne heq =>
      cases heq
      rw [List.map_cons, ← ih, normalizeTerm]
      exact hne

theorem normalizeList_eq_map (args : List Expr) : normalizeList args = args.map normalize := by
  induction args with
  | nil => rw [normalizeList, List.map_nil]
  | cons arg args ih => rw [normalizeList, ih, List.map_cons]

/-- The normal form of any other operation is assembled from those of its arguments. -/
theorem normalize_operation {op : Operator} (hop : op ≠ .add) (args : List Expr) :
    normalize (.operation op args) = assemble op (args.map normalize) := by
  rw [normalize, normalizeList_eq_map]
  rintro arg args rfl
  exact absurd rfl hop

/-- The normal form of a sum is assembled from that of its first term and those of the terms to be
added. -/
theorem normalize_sum (arg : Expr) (args : List Expr) :
    normalize (.operation .add (arg :: args)) =
      assemble .add (normalize arg :: args.map normalizeTerm) := by
  rw [normalize, normalizeTerms_eq_map]

/-- A negation keeps its operator where it has not one argument. -/
theorem assemble_negate {args : List Expr} (h : ∀ arg, args ≠ [arg]) :
    assemble .negate args = .operation .negate args := by
  unfold assemble
  split
  · next heq => cases heq
  · next heq => cases heq
  · next heq _ => exact absurd rfl (h _)
  · rfl

/-- A term that is no negation is normalized as an expression. -/
theorem normalizeTerm_of_ne {term : Expr} (h : ∀ a, term ≠ .operation .negate [a]) :
    normalizeTerm term = normalize term := by
  unfold normalizeTerm
  split
  · next args =>
    have hargs : ∀ a, args.map normalize ≠ [a] := fun a ha ↦ by
      obtain ⟨b, rfl, -⟩ := List.map_eq_singleton_iff.mp ha
      exact h b rfl
    rw [normalize_operation (by decide), assemble_negate hargs, normalizeList_eq_map]
  · rfl

/-- A term is taken in with its normal form. -/
theorem linkNormal_plus (lhs arg : Expr) :
    linkNormal .plus lhs arg = Connective.extend .add lhs (normalizeTerm arg) := by
  rcases link_eq .plus arg with ⟨a, -, rfl, hlink⟩ | ⟨hne, hlink⟩
  · rw [linkNormal, hlink, normalizeTerm, normalizeList_eq_map]
    rfl
  · rw [linkNormal, hlink, normalizeTerm_of_ne (hne rfl)]
    rfl

section Linked

variable {op : Operator} {c : Connective} (hop : op.connective? = some c) {first : Expr}
  {rest : List Expr} (haccepts : op.arity.accepts (rest.length + 1))

/-- The operators that connectives print, with as many operands as they take. -/
theorem connective_cases (hop : op.connective? = some c)
    (haccepts : op.arity.accepts (rest.length + 1)) :
    (op = .add ∧ c = .plus ∧ rest ≠ []) ∨ (op = .multiply ∧ c = .times ∧ rest ≠ []) ∨
      (op = .divide ∧ c = .dividedBy ∧ ∃ rhs, rest = [rhs]) ∨
      (op = .power ∧ c = .caret ∧ ∃ rhs, rest = [rhs]) := by
  have hne : 2 ≤ rest.length + 1 → rest ≠ [] := by
    rintro hlength rfl
    simp at hlength
  have hone : rest.length + 1 = 2 → ∃ rhs, rest = [rhs] := fun hlength ↦
    List.length_eq_one_iff.mp (by omega)
  cases op <;> cases hop
  · exact .inl ⟨rfl, rfl, hne (of_decide_eq_true haccepts)⟩
  · exact .inr (.inl ⟨rfl, rfl, hne (of_decide_eq_true haccepts)⟩)
  · exact .inr (.inr (.inl ⟨rfl, rfl, hone (beq_iff_eq.mp haccepts)⟩))
  · exact .inr (.inr (.inr ⟨rfl, rfl, hone (beq_iff_eq.mp haccepts)⟩))

include hop

theorem layer_linked (args : List Expr) : (operation op args).layer = c.layer := by
  cases op <;> cases hop <;> rfl

include haccepts

/-- Only sums and products go on after a second operand. -/
theorem sides_linked : rest ≠ [] ∧ (c.left = c.layer ∨ rest.length = 1) := by
  rcases connective_cases hop haccepts with ⟨-, rfl, hne⟩ | ⟨-, rfl, hne⟩ | ⟨-, rfl, rhs, rfl⟩ |
    ⟨-, rfl, rhs, rfl⟩
  · exact ⟨hne, .inl rfl⟩
  · exact ⟨hne, .inl rfl⟩
  · exact ⟨by simp, .inr rfl⟩
  · exact ⟨by simp, .inr rfl⟩

/-- The pieces are those of the first operand and of each link. -/
theorem pieces_linked : pieces (.operation op (first :: rest)) =
    inPlace c.left first (pieces first) ++ rest.flatMap (linkPieces c) := by
  rcases connective_cases hop haccepts with ⟨rfl, rfl, -⟩ | ⟨rfl, rfl, -⟩ | ⟨rfl, rfl, rhs, rfl⟩ |
    ⟨rfl, rfl, rhs, rfl⟩
  · rw [pieces, termPieces_eq]
    rfl
  · rw [pieces, factorPieces_eq]
    rfl
  · rw [pieces, List.flatMap_cons, List.flatMap_nil, List.append_nil]
    rfl
  · rw [pieces, List.flatMap_cons, List.flatMap_nil, List.append_nil]
    rfl

/-- The levels are the greatest of the first operand and the links. -/
theorem levels_linked : levels (.operation op (first :: rest)) =
    rest.foldl (fun n arg ↦ max n (linkLevels c arg))
      (levelsInPlace c.left first (levels first)) := by
  rcases connective_cases hop haccepts with ⟨rfl, rfl, -⟩ | ⟨rfl, rfl, -⟩ | ⟨rfl, rfl, rhs, rfl⟩ |
    ⟨rfl, rfl, rhs, rfl⟩
  · rw [levels, max_termLevels]
    rfl
  · rw [levels, max_factorLevels]
    rfl
  · rw [levels]
    rfl
  · rw [levels]
    rfl

/-- The normal form is that of the first operand, joined with each link. -/
theorem normalize_linked : normalize (.operation op (first :: rest)) =
    rest.foldl (linkNormal c) (normalize first) := by
  rcases connective_cases hop haccepts with ⟨rfl, rfl, hrest⟩ | ⟨rfl, rfl, hrest⟩ |
    ⟨rfl, rfl, rhs, rfl⟩ | ⟨rfl, rfl, rhs, rfl⟩
  · obtain ⟨arg, args, rfl⟩ := List.exists_cons_of_ne_nil hrest
    have hlink : linkNormal .plus = fun lhs arg ↦ Connective.extend .add lhs (normalizeTerm arg) :=
      funext fun lhs ↦ funext (linkNormal_plus lhs)
    rw [normalize_sum, List.map_cons, ← foldl_extend (.inl rfl), ← List.map_cons, List.foldl_map,
      hlink]
  · obtain ⟨arg, args, rfl⟩ := List.exists_cons_of_ne_nil hrest
    rw [normalize_operation (by decide), List.map_cons, List.map_cons, ← foldl_extend (.inr rfl),
      ← List.map_cons, List.foldl_map]
    rfl
  · rw [normalize_operation (by decide)]
    rfl
  · rw [normalize_operation (by decide)]
    rfl

end Linked

end Expr

end Tradeoff
