import Tradeoff.Proofs.Formula.Printable

/-!
# Normal forms of printable expressions

The normal form of a printable expression is printable, is its own normal form
(`Printable.isNormal`), and does not nest deeper when it is printed
(`Printable.levels_normalize_le`).

All of it is proved for one operation on normal operands (`Expr.assemble`), of which there are three
kinds: operands spliced in at the start, a number whose sign changes, or nothing to do
(`assemble_cases`).
-/

namespace Tradeoff.Expr

/-! ### One operation -/

/-- The normal form of an operand after the first. -/
def normalizeOperand : Operator → Expr → Expr
  | .add, arg => normalizeTerm arg
  | _, arg => normalize arg

/-- An operation is assembled from the normal forms of its operands, where a negated term of a sum
stays negated. -/
theorem normalize_cons (op : Operator) (first : Expr) (rest : List Expr) :
    normalize (.operation op (first :: rest)) =
      assemble op (normalize first :: rest.map (normalizeOperand op)) := by
  by_cases hop : op = .add
  · subst hop
    exact normalize_sum first rest
  · have hoperand : normalizeOperand op = normalize := by
      cases op <;> first | exact absurd rfl hop | rfl
    rw [normalize_operation hop, List.map_cons, hoperand]

theorem assemble_cases (op : Operator) (first : Expr) (rest : List Expr) :
    assemble op (first :: rest) = .operation op (first :: rest) ∨
      (∃ args, (op = .add ∨ op = .multiply) ∧ first = .operation op args ∧
        assemble op (first :: rest) = .operation op (args ++ rest)) ∨
      (∃ value, op = .negate ∧ first = number value ∧ rest = [] ∧
        assemble op (first :: rest) = number (-value)) := by
  unfold assemble
  split
  · next terms args heq =>
    obtain ⟨rfl, rfl⟩ := List.cons.inj heq
    exact .inr (.inl ⟨terms, .inl rfl, rfl, rfl⟩)
  · next factors args heq =>
    obtain ⟨rfl, rfl⟩ := List.cons.inj heq
    exact .inr (.inl ⟨factors, .inr rfl, rfl, rfl⟩)
  · next value heq =>
    obtain ⟨rfl, rfl⟩ := List.cons.inj heq
    exact .inr (.inr ⟨value, rfl, rfl, rfl, rfl⟩)
  · exact .inl rfl

/-- More operands at the end are more operands of the operation. -/
theorem assemble_append {op : Operator} (hop : op = .add ∨ op = .multiply) {first : Expr}
    {rest args : List Expr} (h : assemble op (first :: rest) = .operation op args)
    (more : List Expr) : assemble op (first :: (rest ++ more)) = .operation op (args ++ more) := by
  -- Operands spliced in at the start are not affected by those at the end.
  by_cases hfirst : ∃ inner, first = .operation op inner
  · obtain ⟨inner, rfl⟩ := hfirst
    rcases hop with rfl | rfl
    all_goals
      obtain ⟨-, rfl⟩ := operation.inj h
      rw [assemble, List.append_assoc]
  · have hne : ∀ inner, first ≠ .operation op inner := fun inner h ↦ hfirst ⟨inner, h⟩
    rw [assemble_of_ne hop hne] at h ⊢
    obtain ⟨-, rfl⟩ := operation.inj h
    rw [List.cons_append]

/-- An operation is tighter than its operator, or as tight. -/
theorem layer_le_layer_assemble (op : Operator) (args : List Expr) :
    op.layer ≤ (assemble op args).layer := by
  unfold assemble
  split
  · exact Layer.le_refl _
  · exact Layer.le_refl _
  · next value _ =>
    rw [number, layer]
    split <;> decide
  · exact Layer.le_refl _

/-- A normal form is never of a looser layer, so it needs no parentheses where the expression needs
none. -/
theorem layer_le_layer_normalize (e : Expr) : e.layer ≤ e.normalize.layer := by
  rcases e with value | name | ⟨op, _ | ⟨first, rest⟩⟩
  · rw [normalize]
    exact Layer.le_refl _
  · rw [normalize]
    exact Layer.le_refl _
  · rw [normalize]
    · exact layer_le_layer_assemble op []
    · rintro arg args - heq
      cases heq
  · rw [normalize_cons]
    exact layer_le_layer_assemble op _

/-! ### Terms -/

theorem normalizeTerm_negate (a : Expr) :
    normalizeTerm (.operation .negate [a]) = .operation .negate [normalize a] := by
  rw [normalizeTerm, normalizeList_eq_map, List.map_cons, List.map_nil]

/-- A term in normal form is a normal form of a term. -/
theorem normalizeTerm_of_normalize {term : Expr} (h : normalize term = term) :
    normalizeTerm term = term := by
  by_cases hnegate : ∃ a, term = .operation .negate [a]
  · obtain ⟨a, rfl⟩ := hnegate
    rw [normalize_negate] at h
    rw [normalizeTerm_negate]
    generalize normalize a = operand at h ⊢
    rcases operand with (value | value) | name | ⟨op, args⟩
    · cases h
    all_goals exact h
  · rw [normalizeTerm_of_ne fun a ha ↦ hnegate ⟨a, ha⟩, h]

/-! ### The normal form of a printable expression -/

/-- Sums and products take more operands as well. -/
theorem accepts_of_le {op : Operator} (hop : op = .add ∨ op = .multiply) {m n : Nat}
    (h : op.arity.accepts m) (hle : m ≤ n) : op.arity.accepts n := by
  rcases hop with rfl | rfl
  all_goals
    have htwo : 2 ≤ m := of_decide_eq_true h
    exact decide_eq_true (Nat.le_trans htwo hle)

/-- What is assembled from printable operands is printable. -/
theorem printable_assemble {op : Operator} {first : Expr} {rest : List Expr}
    (haccepts : op.arity.accepts (rest.length + 1)) (hfirst : first.Printable)
    (hrest : ∀ arg ∈ rest, arg.Printable) : (assemble op (first :: rest)).Printable := by
  rcases assemble_cases op first rest with heq | ⟨args, hop, rfl, heq⟩ | ⟨value, rfl, rfl, rfl, heq⟩
  · rw [heq, printable_operation]
    exact ⟨haccepts, List.forall_mem_cons.mpr ⟨hfirst, hrest⟩⟩
  · obtain ⟨hargs, hprintable⟩ := printable_operation.mp hfirst
    have hlength : op.arity.accepts (args ++ rest).length :=
      accepts_of_le hop hargs (by rw [List.length_append]; omega)
    rw [heq, printable_operation]
    exact ⟨hlength, List.forall_mem_append.mpr ⟨hprintable, hrest⟩⟩
  · rw [heq, printable_number, isFinite_neg]
    exact printable_number.mp hfirst

/-- An operation on normal operands is normal once it is assembled. -/
theorem normalize_assemble {op : Operator} {first : Expr} {rest : List Expr}
    (hfirst : normalize first = first) (hprintable : first.Printable)
    (hrest : rest.map (normalizeOperand op) = rest) :
    normalize (assemble op (first :: rest)) = assemble op (first :: rest) := by
  rcases assemble_cases op first rest with heq | ⟨args, hop, rfl, heq⟩ | ⟨value, rfl, rfl, rfl, heq⟩
  · have hnormal := normalize_cons op first rest
    rw [hfirst, hrest] at hnormal
    rw [heq, hnormal, heq]
  -- The spliced operands are normal where they come from, and no other place changes them.
  · obtain ⟨inner, args, rfl⟩ := List.exists_cons_of_ne_nil hprintable.args_ne_nil
    rw [normalize_cons] at hfirst
    rw [heq, List.cons_append, normalize_cons, List.map_append, hrest,
      assemble_append hop hfirst rest, List.cons_append]
  · rw [heq, number, normalize]

/-- The expression is printable and in normal form. -/
structure IsNormal (e : Expr) : Prop where
  /-- It is printable. -/
  printable : e.Printable
  /-- It is in normal form. -/
  normalize_eq : normalize e = e

/-- The operand of an operator is printable and in the normal form that it has there. -/
structure IsNormalOperand (op : Operator) (arg : Expr) : Prop where
  /-- It is printable. -/
  printable : arg.Printable
  /-- It is in normal form. -/
  normalize_eq : normalizeOperand op arg = arg

/-- A normal form can be any operand. -/
theorem IsNormal.operand {arg : Expr} (h : arg.IsNormal) (op : Operator) :
    IsNormalOperand op arg := by
  refine ⟨h.printable, ?_⟩
  unfold normalizeOperand
  split
  · exact normalizeTerm_of_normalize h.normalize_eq
  · exact h.normalize_eq

/-- Other operands than negated terms are normalized as they are anywhere. -/
theorem normalizeOperand_of_ne {op : Operator} {arg : Expr}
    (h : op = .add → ∀ a, arg ≠ .operation .negate [a]) :
    normalizeOperand op arg = normalize arg := by
  unfold normalizeOperand
  split
  · exact normalizeTerm_of_ne (h rfl)
  · rfl

/-- In a sum, a negated term is normalized under its minus sign. -/
theorem normalizeOperand_negate (a : Expr) :
    normalizeOperand .add (.operation .negate [a]) = .operation .negate [normalize a] :=
  normalizeTerm_negate a

/-- An operand is normal if what is linked has a normal form. -/
theorem isNormalOperand_of_link {op : Operator} {c : Connective} (hop : op.connective? = some c)
    {arg : Expr} (h : (normalize (c.link arg).2).IsNormal) :
    IsNormalOperand op (normalizeOperand op arg) := by
  rcases link_eq c arg with ⟨a, rfl, rfl, hlink⟩ | ⟨hne, hlink⟩ <;> rw [hlink] at h
  -- A negated term is normal below its sign, which stays even before a number.
  · obtain rfl := (Operator.eq_add_iff_eq_plus hop).mpr rfl
    rw [normalizeOperand_negate]
    refine ⟨printable_operation.mpr ⟨rfl, by simpa using h.printable⟩, ?_⟩
    rw [normalizeOperand_negate, h.normalize_eq]
  · rw [normalizeOperand_of_ne fun heq ↦ hne ((Operator.eq_add_iff_eq_plus hop).mp heq)]
    exact h.operand op

/-- An operation has a normal form if its operands have. -/
theorem isNormal_operation {op : Operator} {first : Expr} {rest : List Expr}
    (haccepts : op.arity.accepts (rest.length + 1)) (hfirst : (normalize first).IsNormal)
    (hrest : ∀ arg ∈ rest, IsNormalOperand op (normalizeOperand op arg)) :
    (normalize (.operation op (first :: rest))).IsNormal := by
  have hlength : op.arity.accepts ((rest.map (normalizeOperand op)).length + 1) := by
    rwa [List.length_map]
  have hnormal : (rest.map (normalizeOperand op)).map (normalizeOperand op) =
      rest.map (normalizeOperand op) := by
    rw [List.map_map]
    exact List.map_congr_left fun arg harg ↦ (hrest arg harg).normalize_eq
  rw [normalize_cons]
  refine ⟨printable_assemble hlength hfirst.printable fun arg harg ↦ ?_,
    normalize_assemble hfirst.normalize_eq hfirst.printable hnormal⟩
  obtain ⟨arg, hmem, rfl⟩ := List.mem_map.mp harg
  exact (hrest arg hmem).printable

/-- The normal form of a printable expression is printable and its own normal form. -/
theorem Printable.isNormal {e : Expr} (h : e.Printable) : e.normalize.IsNormal := by
  induction e, h using Printable.induction with
  | number value h =>
    rw [number, normalize]
    exact ⟨h, by rw [normalize]⟩
  | bool value h =>
    rw [bool, normalize]
    exact ⟨h, by rw [normalize]⟩
  | symbol name h =>
    rw [normalize]
    exact ⟨h, by rw [normalize]⟩
  | linked op c first rest h hop hfirst hrest =>
    exact isNormal_operation h.accepts hfirst fun arg harg ↦
      isNormalOperand_of_link hop (hrest arg harg)
  | negate arg h harg => exact isNormal_operation rfl harg (by simp)
  | call op first rest h hop _ hargs =>
    have hadd := Operator.ne_add_of_connective?_eq_none hop
    refine isNormal_operation h.accepts (hargs first List.mem_cons_self) fun arg harg ↦ ?_
    rw [normalizeOperand_of_ne fun heq ↦ absurd heq hadd]
    exact (hargs arg (List.mem_cons_of_mem _ harg)).operand op

/-! ### Levels of normal forms -/

theorem one_le_levels {e : Expr} (h : e.Printable) : 1 ≤ e.levels := (h.fragment.derives []).pos

/-- With fewer levels, in a place that is no tighter, an operand does not nest deeper. -/
theorem levelsInPlace_mono {place place' : Layer} {e e' : Expr} {n n' : Nat} (hn : n ≤ n')
    (hlayer : e'.layer ≤ e.layer) (hplace : place ≤ place') :
    levelsInPlace place e n ≤ levelsInPlace place' e' n' := by
  unfold levelsInPlace
  split
  · split <;> omega
  · next hnot =>
    have hnot' : ¬ place' ≤ e'.layer := fun hle ↦
      hnot (Layer.le_trans hplace (Layer.le_trans hle hlayer))
    rw [if_neg hnot']
    omega

theorem levelsInPlace_of_le {place : Layer} {e : Expr} (h : place ≤ e.layer) (n : Nat) :
    levelsInPlace place e n = n := if_pos h

/-- The greatest of some numbers gets no greater if each of them does not. -/
theorem foldl_max_mono {f g : Expr → Nat} {h : Expr → Expr} {rest : List Expr} {n n' : Nat}
    (hn : n ≤ n') (hrest : ∀ arg ∈ rest, f (h arg) ≤ g arg) :
    (rest.map h).foldl (fun n arg ↦ max n (f arg)) n ≤
      rest.foldl (fun n arg ↦ max n (g arg)) n' := by
  induction rest generalizing n n' with
  | nil => exact hn
  | cons arg rest ih =>
    have harg := hrest arg (by simp)
    have hmax : max n (f (h arg)) ≤ max n' (g arg) := by omega
    exact ih hmax fun b hb ↦ hrest b (List.mem_cons_of_mem _ hb)

/-- Splicing operands in at the start changes nothing in print. -/
theorem levels_assemble {op : Operator} {c : Connective} (hop : op.connective? = some c)
    {first : Expr} {rest : List Expr} (haccepts : op.arity.accepts (rest.length + 1))
    (hfirst : first.Printable) :
    levels (assemble op (first :: rest)) = rest.foldl (fun n arg ↦ max n (linkLevels c arg))
      (levelsInPlace c.left first (levels first)) := by
  rcases assemble_cases op first rest with heq | ⟨args, hassoc, rfl, heq⟩ |
    ⟨value, rfl, rfl, rfl, heq⟩
  · rw [heq, levels_linked hop haccepts]
  · obtain ⟨inner, args, rfl⟩ := List.exists_cons_of_ne_nil hfirst.args_ne_nil
    have hmore : op.arity.accepts ((args ++ rest).length + 1) :=
      accepts_of_le hassoc hfirst.accepts (by rw [List.length_append]; omega)
    -- A sum at the start of a sum is printed without parentheses, and so for products.
    have hlayer : c.left ≤ (operation op (inner :: args)).layer := by
      rcases hassoc with rfl | rfl <;> cases hop <;> exact Layer.le_refl _
    rw [heq, List.cons_append, levels_linked hop hmore, List.foldl_append,
      ← levels_linked hop hfirst.accepts, levelsInPlace_of_le hlayer]
  · cases hop

/-- An operand after others takes no more levels than its place says. -/
theorem linkLevels_le (c : Connective) (arg : Expr) :
    linkLevels c arg ≤ levelsInPlace c.right arg arg.levels + 1 := by
  rcases link_eq c arg with ⟨a, rfl, rfl, hlink⟩ | ⟨-, hlink⟩
  · have hplace : levelsInPlace .product a a.levels ≤ levelsInPlace .signed a a.levels :=
      levelsInPlace_mono (Nat.le_refl _) (Layer.le_refl _) (by decide)
    have hlayer : Layer.product ≤ (operation .negate [a]).layer :=
      (by decide : Layer.product ≤ Layer.signed)
    show levelsInPlace _ _ _ + 1 ≤ levelsInPlace .product _ _ + 1
    rw [hlink, levelsInPlace_of_le hlayer, levels]
    exact Nat.succ_le_succ (Nat.le_succ_of_le hplace)
  · refine Nat.le_of_eq ?_
    rw [linkLevels, hlink]

/-- An operand after others takes no more levels in normal form. -/
theorem linkLevels_normalizeOperand_le {op : Operator} {c : Connective}
    (hop : op.connective? = some c) {arg : Expr}
    (h : (normalize (c.link arg).2).levels ≤ (c.link arg).2.levels) :
    linkLevels c (normalizeOperand op arg) ≤ linkLevels c arg := by
  have hplace := levelsInPlace_mono h (layer_le_layer_normalize (c.link arg).2)
    (Layer.le_refl (c.link arg).1.right)
  rcases link_eq c arg with ⟨a, rfl, rfl, hlink⟩ | ⟨hne, hlink⟩ <;> rw [hlink] at hplace
  · obtain rfl := (Operator.eq_add_iff_eq_plus hop).mpr rfl
    rw [normalizeOperand_negate]
    exact Nat.succ_le_succ hplace
  · rw [normalizeOperand_of_ne fun heq ↦ hne ((Operator.eq_add_iff_eq_plus hop).mp heq)]
    have hle := linkLevels_le c (normalize arg)
    rw [linkLevels.eq_def c arg, hlink]
    exact Nat.le_trans hle (Nat.succ_le_succ hplace)

/-- A minus sign before a number takes no more levels than the number and one. -/
theorem levels_signed_le {arg : Expr} (h : arg.Printable) :
    arg.signed.levels ≤ levelsInPlace .signed arg arg.levels + 1 := by
  have hpos := one_le_levels h
  have hplace : arg.levels ≤ levelsInPlace .signed arg arg.levels := by
    unfold levelsInPlace
    split <;> omega
  by_cases hnumber : ∃ value, arg = number value
  · obtain ⟨value, rfl⟩ := hnumber
    have hlevels : (number value).signed.levels ≤ 2 := by
      show (if carriesMinus (-value) then 2 else 1) ≤ 2
      split <;> omega
    omega
  · have hsigned : arg.signed = .operation .negate [arg] :=
      (negated_iff.mp (.operation fun value heq ↦ hnumber ⟨value, heq⟩)).symm
    exact Nat.le_of_eq (by rw [hsigned, levels])

theorem argumentLevels_mono {args : List Expr}
    (h : ∀ arg ∈ args, arg.normalize.levels ≤ arg.levels) :
    argumentLevels (args.map normalize) ≤ argumentLevels args := by
  induction args with
  | nil => exact Nat.le_refl _
  | cons arg args ih =>
    have harg := h arg (by simp)
    have hargs := ih fun b hb ↦ h b (List.mem_cons_of_mem _ hb)
    rw [List.map_cons, argumentLevels, argumentLevels]
    omega

/-- The normal form does not nest deeper in print. -/
theorem Printable.levels_normalize_le {e : Expr} (h : e.Printable) :
    e.normalize.levels ≤ e.levels := by
  induction e, h using Printable.induction with
  | number value => exact Nat.le_of_eq (by rw [number, normalize])
  | bool value => exact Nat.le_refl _
  | symbol name => exact Nat.le_refl _
  | linked op c first rest h hop hfirst hrest =>
    have hlength : op.arity.accepts ((rest.map (normalizeOperand op)).length + 1) := by
      rw [List.length_map]
      exact h.accepts
    have hnormal : first.normalize.Printable := (h.of_mem List.mem_cons_self).isNormal.printable
    rw [normalize_cons, levels_assemble hop hlength hnormal, levels_linked hop h.accepts]
    exact foldl_max_mono
      (levelsInPlace_mono hfirst (layer_le_layer_normalize first) (Layer.le_refl _))
      fun arg harg ↦ linkLevels_normalizeOperand_le hop (hrest arg harg)
  | negate arg h harg =>
    have hsigned := levels_signed_le (h.of_mem List.mem_cons_self).isNormal.printable
    have hplace := levelsInPlace_mono harg (layer_le_layer_normalize arg) (Layer.le_refl .signed)
    rw [normalize_negate, levels]
    omega
  | call op first rest h hop hnegate hargs =>
    have hlevels := argumentLevels_mono hargs
    rw [normalize_call hop hnegate, List.map_cons, levels_call hop hnegate, levels_call hop hnegate]
    exact Nat.succ_le_succ hlevels

end Tradeoff.Expr
