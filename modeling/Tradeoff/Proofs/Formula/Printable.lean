import Tradeoff.Proofs.Formula.Linked

/-!
# Printable expressions

A printable expression is a leaf, operands linked by connectives, a negation or a call
(`Printable.induction`). By that induction the operands of its printed form nest at most two levels
for every operation on the way to a leaf (`levels_le`), and its pieces are a fragment of exactly as
many levels as `Expr.levels` says, which stands for its normal form (`Printable.fragment`).
-/

namespace Tradeoff.Expr

/-! ### Parts of printable expressions -/

/-- An operation is printable if its operator takes that many arguments and these are printable. -/
theorem printable_operation {op : Operator} {args : List Expr} :
    (operation op args).Printable ↔
      op.arity.accepts args.length ∧ ∀ arg ∈ args, arg.Printable := by
  have hmentions : (operation op args).mentions = mentionsList args := by rw [mentions]
  constructor
  · rintro ⟨harity, hfinite, hidentifiers⟩
    rw [takesArity_operation] at harity
    rw [finiteNumbers_operation] at hfinite
    rw [hmentions] at hidentifiers
    exact ⟨harity.1, fun arg harg ↦ ⟨harity.2 arg harg, hfinite arg harg, fun symbol hsymbol ↦
      hidentifiers symbol (mem_mentionsList.mpr ⟨arg, harg, hsymbol⟩)⟩⟩
  · rintro ⟨haccepts, hargs⟩
    refine ⟨takesArity_operation.mpr ⟨haccepts, fun arg harg ↦ (hargs arg harg).takesArity⟩,
      finiteNumbers_operation.mpr fun arg harg ↦ (hargs arg harg).finiteNumbers, ?_⟩
    rw [hmentions]
    intro symbol hsymbol
    obtain ⟨arg, harg, hmem⟩ := mem_mentionsList.mp hsymbol
    exact (hargs arg harg).identifiers symbol hmem

/-- What is asked of a leaf. -/
theorem printable_of_nodes_eq {e : Expr} (hnodes : e.nodes = [e])
    (hoperation : ∀ op args, e ≠ .operation op args)
    (hfinite : ∀ value, e = number value → value.isFinite)
    (hidentifiers : ∀ symbol ∈ e.mentions, isIdentifier symbol) : e.Printable := by
  refine ⟨fun op args hmem ↦ ?_, fun value hmem ↦ ?_, hidentifiers⟩
  · rw [hnodes, List.mem_singleton] at hmem
    exact absurd hmem.symm (hoperation op args)
  · rw [hnodes, List.mem_singleton] at hmem
    exact hfinite value hmem.symm

/-- A number has a numeral if it is finite. -/
theorem printable_number {value : Float} : (number value).Printable ↔ value.isFinite := by
  constructor
  · intro h
    exact h.finiteNumbers value (self_mem_nodes _)
  · intro hfinite
    refine printable_of_nodes_eq rfl (fun _ _ ↦ nofun) (fun value' heq ↦ ?_) (fun _ ↦ nofun)
    cases heq
    exact hfinite

/-- A symbol is read back if it is an identifier. -/
theorem printable_symbol {name : String} (h : isIdentifier name) : (symbol name).Printable := by
  refine printable_of_nodes_eq rfl (fun _ _ ↦ nofun) (fun _ ↦ nofun) fun symbol hsymbol ↦ ?_
  obtain rfl : symbol = name := by simpa [mentions] using hsymbol
  exact h

theorem Printable.accepts {op : Operator} {first : Expr} {rest : List Expr}
    (h : (operation op (first :: rest)).Printable) : op.arity.accepts (rest.length + 1) :=
  (printable_operation.mp h).1

theorem Printable.of_mem {op : Operator} {args : List Expr} (h : (operation op args).Printable)
    {arg : Expr} (harg : arg ∈ args) : arg.Printable :=
  (printable_operation.mp h).2 arg harg

/-- A printable expression takes arguments wherever it has an operator. -/
theorem Printable.args_ne_nil {op : Operator} {args : List Expr}
    (h : (operation op args).Printable) : args ≠ [] := by
  rintro rfl
  have haccepts := (printable_operation.mp h).1
  cases op <;> cases haccepts

/-- An operand after the first is printable without its sign. -/
theorem Printable.link {arg : Expr} (h : arg.Printable) (c : Connective) :
    (c.link arg).2.Printable := by
  rcases link_eq c arg with ⟨a, rfl, rfl, hlink⟩ | ⟨-, hlink⟩
  · rw [hlink]
    exact h.of_mem (by simp)
  · rw [hlink]
    exact h

/-- Linking an operand may take a minus sign from it, and adds nothing. -/
theorem sizeOf_link_le (c : Connective) (arg : Expr) : sizeOf (c.link arg).2 ≤ sizeOf arg := by
  rcases link_eq c arg with ⟨a, rfl, rfl, hlink⟩ | ⟨-, hlink⟩
  · rw [hlink]
    simp
    omega
  · exact Nat.le_of_eq (by rw [hlink])

/-- Induction along the printed form of an expression. -/
@[elab_as_elim]
theorem Printable.induction {motive : (e : Expr) → e.Printable → Prop}
    (number : ∀ value (h : (number value).Printable), motive (.number value) h)
    (bool : ∀ value (h : (bool value).Printable), motive (.bool value) h)
    (symbol : ∀ name (h : (symbol name).Printable), motive (.symbol name) h)
    (linked : ∀ op c first rest (h : (operation op (first :: rest)).Printable),
      op.connective? = some c → motive first (h.of_mem List.mem_cons_self) →
      (∀ arg (harg : arg ∈ rest),
        motive (c.link arg).2 ((h.of_mem (List.mem_cons_of_mem _ harg)).link c)) →
      motive (.operation op (first :: rest)) h)
    (negate : ∀ arg (h : (operation .negate [arg]).Printable),
      motive arg (h.of_mem List.mem_cons_self) → motive (.operation .negate [arg]) h)
    (call : ∀ op first rest (h : (operation op (first :: rest)).Printable),
      op.connective? = none → op ≠ .negate →
      (∀ arg (harg : arg ∈ first :: rest), motive arg (h.of_mem harg)) →
      motive (.operation op (first :: rest)) h) :
    ∀ (e : Expr) (h : e.Printable), motive e h
  | .literal (.number value), h => number value h
  | .literal (.bool value), h => bool value h
  | .symbol name, h => symbol name h
  | .operation op [], h => absurd rfl h.args_ne_nil
  | .operation op (first :: rest), h => by
    -- What follows a connective can be smaller than the operand: a minus sign takes a negation off.
    have ih : ∀ (e : Expr) (he : e.Printable), sizeOf e < sizeOf (operation op (first :: rest)) →
        motive e he :=
      fun e he hlt ↦ Printable.induction number bool symbol linked negate call e he
    have hsize : ∀ arg ∈ first :: rest, sizeOf arg < sizeOf (operation op (first :: rest)) := by
      intro arg harg
      have hlt := List.sizeOf_lt_of_mem harg
      rw [operation.sizeOf_spec]
      omega
    rcases hop : op.connective? with _ | c
    · by_cases hnegate : op = .negate
      · subst hnegate
        obtain rfl : rest = [] := List.eq_nil_of_length_eq_zero
          (Nat.succ.inj (beq_iff_eq.mp h.accepts))
        exact negate first h (ih first _ (hsize first List.mem_cons_self))
      · exact call op first rest h hop hnegate fun arg harg ↦ ih arg _ (hsize arg harg)
    · refine linked op c first rest h hop (ih first _ (hsize first List.mem_cons_self))
        fun arg harg ↦ ih _ _ ?_
      exact Nat.lt_of_le_of_lt (sizeOf_link_le c arg) (hsize arg (List.mem_cons_of_mem _ harg))
termination_by e => sizeOf e
decreasing_by exact hlt

/-! ### Negations and calls -/

/-- The normal form of a negation is the signed normal form of what is negated. -/
theorem normalize_negate (arg : Expr) :
    normalize (.operation .negate [arg]) = (normalize arg).signed := by
  rw [normalize_operation (by decide), List.map_cons, List.map_nil]
  rcases normalize arg with (value | value) | name | ⟨op, args⟩ <;> rfl

section Call

variable {op : Operator} (hop : op.connective? = none) (hnegate : op ≠ .negate)

include hop hnegate

theorem layer_call (args : List Expr) : (operation op args).layer = .atom := by
  cases op <;> first | exact absurd rfl hnegate | (cases hop; done) | rfl

/-- A call is one level of nesting around its arguments. -/
theorem levels_call (first : Expr) (rest : List Expr) :
    levels (.operation op (first :: rest)) = argumentLevels (first :: rest) + 1 := by
  cases op <;> first | exact absurd rfl hnegate | (cases hop; done) | rfl

/-- A call prints as its name and its arguments in parentheses. -/
theorem pieces_call (first : Expr) (rest : List Expr) :
    pieces (.operation op (first :: rest)) = ⟨.identifier op.name, .tight⟩ :: ⟨.opening, .tight⟩ ::
      (pieces first ++ argumentPieces rest ++ [⟨.closing, .tight⟩]) := by
  cases op <;> first | exact absurd rfl hnegate | (cases hop; done) | rfl

/-- The normal form of a call is the call of the normal forms. -/
theorem normalize_call (args : List Expr) :
    normalize (.operation op args) = .operation op (args.map normalize) := by
  rw [normalize_operation (Operator.ne_add_of_connective?_eq_none hop)]
  unfold assemble
  split
  · cases hop
  · cases hop
  · exact absurd rfl hnegate
  · rfl

end Call

/-! ### Levels and height -/

/-- Parentheses are at most one level more. -/
theorem levelsInPlace_le (place : Layer) (operand : Expr) (n : Nat) :
    levelsInPlace place operand n ≤ n + 1 := by
  unfold levelsInPlace
  split <;> omega

/-- The greatest of some numbers is bounded if each of them is. -/
theorem foldl_max_le {f : Expr → Nat} {rest : List Expr} {n bound : Nat} (hn : n ≤ bound)
    (hrest : ∀ arg ∈ rest, f arg ≤ bound) :
    rest.foldl (fun n arg ↦ max n (f arg)) n ≤ bound := by
  induction rest generalizing n with
  | nil => exact hn
  | cons arg rest ih =>
    have harg := hrest arg (by simp)
    exact ih (Nat.max_le.mpr ⟨hn, harg⟩) fun b hb ↦ hrest b (List.mem_cons_of_mem _ hb)

/-- No argument is higher than all of them. -/
theorem height_le_heightList {arg : Expr} {args : List Expr} (h : arg ∈ args) :
    arg.height ≤ heightList args := by
  induction args with
  | nil => cases h
  | cons b args ih =>
    rw [heightList]
    rcases List.mem_cons.mp h with rfl | hmem
    · omega
    · have := ih hmem
      omega

/-- The operand that is linked is no higher than the term. -/
theorem height_link_le (c : Connective) (arg : Expr) : (c.link arg).2.height ≤ arg.height := by
  rcases link_eq c arg with ⟨a, rfl, rfl, hlink⟩ | ⟨-, hlink⟩
  · have hle : a.height ≤ heightList [a] := height_le_heightList (by simp)
    rw [hlink, height]
    exact Nat.le_succ_of_le hle
  · exact Nat.le_of_eq (by rw [hlink])

/-- Arguments nest no deeper than the deepest of them. -/
theorem argumentLevels_le {args : List Expr} {bound : Nat} (h : ∀ arg ∈ args, levels arg ≤ bound) :
    argumentLevels args ≤ bound := by
  induction args with
  | nil => exact Nat.zero_le _
  | cons arg args ih =>
    have harg := h arg (by simp)
    have hargs := ih fun b hb ↦ h b (List.mem_cons_of_mem _ hb)
    rw [argumentLevels]
    omega

/-- Every operation takes two levels at most: one for its connective and one for parentheses. -/
theorem levels_le {e : Expr} (h : e.Printable) : e.levels ≤ 2 * e.height + 2 := by
  induction e, h using Printable.induction with
  | number value =>
    rw [number, levels]
    split <;> omega
  | bool value => exact Nat.le_succ 1
  | symbol name => exact Nat.le_succ 1
  | linked op c first rest h hop hfirst hrest =>
    rw [levels_linked hop h.accepts, height]
    have hheight : first.height ≤ heightList (first :: rest) :=
      height_le_heightList List.mem_cons_self
    refine foldl_max_le ?_ fun arg harg ↦ ?_
    · have := levelsInPlace_le c.left first first.levels
      omega
    · have hlevels := hrest arg harg
      have hlink := height_link_le c arg
      have hheight : arg.height ≤ heightList (first :: rest) :=
        height_le_heightList (List.mem_cons_of_mem _ harg)
      -- One level for the parentheses around the operand and one for its connective.
      have := levelsInPlace_le (c.link arg).1.right (c.link arg).2 (c.link arg).2.levels
      unfold linkLevels
      omega
  | negate arg h harg =>
    have hheight : arg.height ≤ heightList [arg] := height_le_heightList List.mem_cons_self
    have := levelsInPlace_le .signed arg arg.levels
    rw [levels, height]
    omega
  | call op first rest h hop hnegate hargs =>
    have hlevels : argumentLevels (first :: rest) ≤ 2 * heightList (first :: rest) + 2 := by
      refine argumentLevels_le fun arg harg ↦ ?_
      have hheight := height_le_heightList harg
      have := hargs arg harg
      omega
    rw [levels_call hop hnegate, height]
    omega

/-! ### The pieces of a printable expression -/

/-- A number prints as a numeral, after a minus sign if it carries one, and is read back from
these. -/
theorem fragment_number {value : Float} (hfinite : value.isFinite) :
    Fragment (number value).levels (number value).layer (number value).pieces (number value) := by
  obtain ⟨hnan, hinf⟩ := isNaN_isInf_of_isFinite hfinite
  have hmagnitude : Fragment 1 .atom [⟨.number value.abs, .tight⟩] (number value.abs) :=
    .number (by rwa [isFinite_abs]) (abs_abs value)
  rw [number, levels, layer, pieces, numberPieces]
  simp only [hnan, hinf, Bool.false_eq_true, if_false]
  rcases hminus : carriesMinus value with _ | _
  · rw [abs_eq_self hminus] at hmagnitude ⊢
    exact hmagnitude
  · have hsigned : Fragment 1 .signed [⟨.number value.abs, .tight⟩] (number value.abs) :=
      hmagnitude.loosen (by decide)
    have hnegative := hsigned.negative
    have hvalue : (number value.abs).signed = number value := by
      show number (-value.abs) = number value
      rw [neg_abs_eq_self hminus]
    rw [hvalue] at hnegative
    exact hnegative

/-- A minus sign links like a plus sign. -/
theorem link_sides (c : Connective) (arg : Expr) :
    (c.link arg).1.left = c.left ∧ (c.link arg).1.layer = c.layer := by
  rcases link_eq c arg with ⟨a, rfl, rfl, hlink⟩ | ⟨-, hlink⟩ <;> rw [hlink] <;> exact ⟨rfl, rfl⟩

/-- One more operand. -/
theorem fragment_link {c : Connective} {n : Nat} {ps : List Piece} {lhs arg : Expr}
    (hlhs : Fragment n c.left ps lhs)
    (harg : Fragment (c.link arg).2.levels (c.link arg).2.layer (c.link arg).2.pieces
      (c.link arg).2.normalize) :
    Fragment (max n (linkLevels c arg)) c.layer (ps ++ linkPieces c arg)
      (linkNormal c lhs arg) := by
  obtain ⟨hleft, hlayer⟩ := link_sides c arg
  rw [← hleft] at hlhs
  rw [← hlayer]
  exact hlhs.join (harg.inPlace (c.link arg).1.right)

/-- All operands. Only sums and products go on after a second one. -/
theorem fragment_linked {c : Connective} {n : Nat} {ps : List Piece} {lhs : Expr} {rest : List Expr}
    (hlhs : Fragment n c.left ps lhs) (hne : rest ≠ []) (hleft : c.left = c.layer ∨ rest.length = 1)
    (hrest : ∀ arg ∈ rest, Fragment (c.link arg).2.levels (c.link arg).2.layer (c.link arg).2.pieces
      (c.link arg).2.normalize) :
    Fragment (rest.foldl (fun n arg ↦ max n (linkLevels c arg)) n) c.layer
      (ps ++ rest.flatMap (linkPieces c)) (rest.foldl (linkNormal c) lhs) := by
  induction rest generalizing n ps lhs with
  | nil => exact absurd rfl hne
  | cons arg rest ih =>
    have hlink := fragment_link hlhs (hrest arg (by simp))
    rw [List.foldl_cons, List.foldl_cons, List.flatMap_cons, ← List.append_assoc]
    -- What has been linked is the left side of the next connective if there is one.
    by_cases hlast : rest = []
    · subst hlast
      simpa using hlink
    · have hlayer : c.left = c.layer := hleft.resolve_right fun hlength ↦
        hlast (List.eq_nil_of_length_eq_zero (Nat.succ.inj hlength))
      rw [← hlayer] at hlink
      exact ih hlink hlast (.inl hlayer) fun b hb ↦ hrest b (List.mem_cons_of_mem _ hb)

/-- Arguments are fragments with commas between them. -/
theorem fragment_arguments {first : Expr} {rest : List Expr}
    (hargs : ∀ arg ∈ first :: rest, Fragment arg.levels arg.layer arg.pieces arg.normalize) :
    ArgumentsFragment (argumentLevels (first :: rest)) (first.pieces ++ argumentPieces rest)
      ((first :: rest).map normalize) := by
  have hfirst : Fragment first.levels .sum first.pieces first.normalize :=
    (hargs first (by simp)).loosen (Nat.zero_le _)
  induction rest generalizing first with
  | nil =>
    rw [argumentLevels, argumentLevels, argumentPieces, List.append_nil, Nat.max_zero]
    exact .one hfirst
  | cons second rest ih =>
    have hmem : second ∈ first :: second :: rest := by simp
    have hmore := ih (fun arg harg ↦ hargs arg (List.mem_cons_of_mem _ harg))
      ((hargs second hmem).loosen (Nat.zero_le _))
    rw [argumentLevels, argumentPieces, List.map_cons]
    exact .more hfirst hmore

/-- An operator is found by its own name. -/
theorem ofName?_name (op : Operator) : Operator.ofName? op.name = some op := by
  cases op <;> decide

/-- The pieces of a printable expression stand for its normal form. -/
theorem Printable.fragment {e : Expr} (h : e.Printable) :
    Fragment e.levels e.layer e.pieces e.normalize := by
  induction e, h using Printable.induction with
  | number value h =>
    have hnormal : (number value).normalize = number value := by rw [number, normalize]
    rw [hnormal]
    exact fragment_number (printable_number.mp h)
  | bool value =>
    cases value with
    | false => exact .name (by decide) .false
    | true => exact .name (by decide) .true
  | symbol name h =>
    have hidentifier : isIdentifier name := h.identifiers name (by simp [mentions])
    obtain ⟨hname, htrue, hfalse⟩ := isName_of_isIdentifier hidentifier
    exact .name hname (.symbol htrue hfalse)
  | linked op c first rest h hop hfirst hrest =>
    obtain ⟨hne, hsides⟩ := sides_linked hop h.accepts
    rw [pieces_linked hop h.accepts, levels_linked hop h.accepts, normalize_linked hop h.accepts,
      layer_linked hop]
    exact fragment_linked (hfirst.inPlace c.left) hne hsides hrest
  | negate arg h harg =>
    rw [pieces, levels, normalize_negate]
    exact (harg.inPlace .signed).negative
  | call op first rest h hop hnegate hargs =>
    have haccepts : op.arity.accepts ((first :: rest).map normalize).length := by
      rw [List.length_map]
      exact h.accepts
    have harguments := fragment_arguments hargs
    rw [pieces_call hop hnegate, levels_call hop hnegate, layer_call hop hnegate,
      normalize_call hop hnegate]
    exact harguments.call (isName_name op) (.operation (ofName?_name op) haccepts)

end Tradeoff.Expr
