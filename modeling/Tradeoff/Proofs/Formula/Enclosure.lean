import Tradeoff.Proofs.Formula.Grammar

/-!
# Enclosures

Parts of a formula enclose others: groups and arguments stand in parentheses, and a minus sign and a
connective have an operand after them (`Enclosure`). Which enclosures are open after some tokens
depends on these tokens alone (`Place.run`), whether or not they spell anything.

Where they do, the depth of the derivation is the greatest number of enclosures that are open
anywhere, and one more (`Derives.traverses`). The induction goes along a derivation from any place
where an operand may start. What it has to know about the end is which enclosures are still open
there (`Pending`): operands that end with the expression and that nothing goes on which may follow
it.
-/

namespace Tradeoff

/-! ### Enclosures -/

/-- A part of a formula in which others stand. -/
inductive Enclosure where
  /-- A group, or the arguments of a call. -/
  | parentheses
  /-- The operand of a minus sign. -/
  | sign
  /-- The operand after a connective. -/
  | operand (c : Connective)
deriving DecidableEq

namespace Enclosure

/-- The layer of what is enclosed. -/
def layer : Enclosure → Layer
  | parentheses => .sum
  | sign => .signed
  | operand c => c.right

/-- Whether the enclosure is one of those that are said to nest: a group, the arguments of a call,
an operand of a minus sign or an exponent. -/
def isNesting : Enclosure → Bool
  | parentheses | sign => true
  | operand c => c = .caret

end Enclosure

/-- The layer of what stands in the innermost of the enclosures. Outside of them all it is a sum. -/
def inside : List Enclosure → Layer
  | [] => .sum
  | f :: _ => f.layer

theorem inside_cons_le (f : Enclosure) (s : List Enclosure) : inside (f :: s) ≤ f.layer :=
  Layer.le_refl f.layer

/-- Where reading stands in a formula. -/
structure Place where
  /-- The enclosures that are open, the innermost first. -/
  opened : List Enclosure
  /-- Whether an operand is complete. -/
  afterOperand : Bool

namespace Place

/-- The place before a formula. -/
def start : Place := ⟨[], false⟩

/-- The place after one more token. A connective after an operand closes the operands that it does
not continue and opens its own; a comma closes everything in the parentheses around it and a closing
parenthesis these too. -/
def next (p : Place) : Token → Place
  | .number _ | .identifier _ => ⟨p.opened, true⟩
  | .opening => ⟨.parentheses :: p.opened, false⟩
  | .closing => ⟨(p.opened.dropWhile (· ≠ .parentheses)).tail, true⟩
  | .comma => ⟨p.opened.dropWhile (· ≠ .parentheses), false⟩
  | token =>
    match p.afterOperand, Connective.ofToken? token with
    | true, some c => ⟨.operand c :: p.opened.dropWhile (¬ ·.layer ≤ c.layer), false⟩
    | _, _ => if token = .minus then ⟨.sign :: p.opened, false⟩ else p

/-- The place after some tokens. -/
def run (p : Place) (tokens : List Token) : Place := tokens.foldl next p

/-- The greatest number of enclosures that are open anywhere between the tokens. -/
def deepest (p : Place) : List Token → Nat
  | [] => p.opened.length
  | token :: tokens => max p.opened.length ((p.next token).deepest tokens)

@[simp] theorem run_nil (p : Place) : p.run [] = p := rfl

@[simp] theorem run_cons (p : Place) (token : Token) (tokens : List Token) :
    p.run (token :: tokens) = (p.next token).run tokens := rfl

theorem run_append (p : Place) (before after : List Token) :
    p.run (before ++ after) = (p.run before).run after := List.foldl_append

/-- The place to start from counts too. -/
theorem length_le_deepest (p : Place) (tokens : List Token) :
    p.opened.length ≤ p.deepest tokens := by
  cases tokens with
  | nil => exact Nat.le_refl _
  | cons token tokens => exact Nat.le_max_left _ _

/-- As many enclosures are open at the end as anywhere, or fewer. -/
theorem length_run_le_deepest (p : Place) (tokens : List Token) :
    (p.run tokens).opened.length ≤ p.deepest tokens := by
  induction tokens generalizing p with
  | nil => exact Nat.le_refl _
  | cons token tokens ih => exact (ih _).trans (Nat.le_max_right _ _)

/-- The deepest place is in the first part or in the second. -/
theorem deepest_append (p : Place) (before after : List Token) :
    p.deepest (before ++ after) = max (p.deepest before) ((p.run before).deepest after) := by
  induction before generalizing p with
  | nil =>
    show p.deepest after = max p.opened.length (p.deepest after)
    have hle := p.length_le_deepest after
    omega
  | cons token before ih =>
    show max p.opened.length ((p.next token).deepest (before ++ after)) =
      max (max p.opened.length ((p.next token).deepest before)) _
    rw [ih, Nat.max_assoc, run_cons]

/-- So many enclosures are nowhere open if after no first part of the tokens they are. -/
theorem deepest_lt_iff {p : Place} {tokens : List Token} {n : Nat} :
    p.deepest tokens < n ↔ ∀ before, before <+: tokens → (p.run before).opened.length < n := by
  induction tokens generalizing p with
  | nil => simp [deepest]
  | cons token tokens ih =>
    rw [deepest, Nat.max_lt, ih]
    constructor
    · rintro ⟨hfirst, hrest⟩ before hbefore
      rcases List.prefix_cons_iff.mp hbefore with rfl | ⟨before, rfl, hbefore⟩
      · exact hfirst
      · exact hrest before ((List.prefix_cons_inj token).mp hbefore)
    · intro h
      exact ⟨h [] List.nil_prefix, fun before hbefore ↦
        h (token :: before) ((List.prefix_cons_inj token).mpr hbefore)⟩

end Place

/-! ### Enclosures that are still open after an expression -/

/-- The enclosures may be open after an expression of the layer: none is a parenthesis, and whatever
may follow the expression does not go on in them. -/
def Pending (layer : Layer) (inner : List Enclosure) : Prop :=
  ∀ f ∈ inner, f ≠ .parentheses ∧ ∀ rest, Admits layer rest → Stops f.layer rest

namespace Pending

variable {layer layer' : Layer} {inner s : List Enclosure}

theorem nil (layer : Layer) : Pending layer [] := fun _ hf ↦ absurd hf List.not_mem_nil

/-- After an expression of a tighter layer more may be open. -/
theorem mono (h : Pending layer' inner) (hle : layer ≤ layer') : Pending layer inner :=
  fun f hf ↦ ⟨(h f hf).1, fun rest hrest ↦ (h f hf).2 rest (hrest.mono hle)⟩

/-- After a right operand its own enclosure is open too. -/
theorem right {c : Connective} (h : Pending c.right inner) :
    Pending c.layer (inner ++ [.operand c]) := by
  intro f hf
  rcases List.mem_append.mp hf with hf | hf
  · exact ⟨(h f hf).1, fun rest hrest ↦ (h f hf).2 rest hrest.right⟩
  · obtain rfl := List.mem_singleton.mp hf
    exact ⟨by simp, fun rest hrest ↦ (stops_right_iff c).mpr hrest⟩

/-- After the operand of a minus sign its own enclosure is open too. -/
theorem signed (h : Pending .signed inner) : Pending .signed (inner ++ [.sign]) := by
  intro f hf
  rcases List.mem_append.mp hf with hf | hf
  · exact h f hf
  · obtain rfl := List.mem_singleton.mp hf
    exact ⟨by simp, fun rest hrest ↦ stops_signed_iff.mpr hrest⟩

end Pending

namespace Place

variable {layer : Layer} {inner s : List Enclosure}

/-- A connective closes the operands at the end of its left operand. -/
theorem next_connective (c : Connective) (hinner : Pending c.left inner) (hs : inside s ≤ c.layer) :
    next ⟨inner ++ s, true⟩ c.token = ⟨.operand c :: s, false⟩ := by
  have hnext : next ⟨inner ++ s, true⟩ c.token =
      ⟨.operand c :: (inner ++ s).dropWhile (¬ ·.layer ≤ c.layer), false⟩ := by
    cases c <;> rfl
  have hclosed : ∀ f ∈ inner, decide (¬ f.layer ≤ c.layer) = true := fun f hf ↦
    decide_eq_true ((hinner f hf).2 [c.token] (Follows.connective c []).admits c
      (Connective.ofToken?_eq_some_iff.mpr rfl))
  have hkept : s.dropWhile (¬ ·.layer ≤ c.layer) = s := by
    cases s with
    | nil => rfl
    | cons f s =>
      have hf : f.layer ≤ c.layer := hs
      exact List.dropWhile_cons_of_neg (by simpa using hf)
  rw [hnext, List.dropWhile_append_of_pos hclosed, hkept]

/-- Up to the parenthesis everything that is open is closed. -/
theorem dropWhile_pending (hinner : Pending layer inner) :
    (inner ++ .parentheses :: s).dropWhile (· ≠ .parentheses) = .parentheses :: s := by
  rw [List.dropWhile_append_of_pos fun f hf ↦ decide_eq_true (hinner f hf).1]
  rfl

/-- A closing parenthesis closes the innermost parentheses and everything in them. -/
theorem next_closing (hinner : Pending layer inner) (afterOperand : Bool) :
    next ⟨inner ++ .parentheses :: s, afterOperand⟩ .closing = ⟨s, true⟩ := by
  simp only [next, dropWhile_pending hinner, List.tail_cons]

/-- A comma leaves the parentheses open and closes everything in them. -/
theorem next_comma (hinner : Pending layer inner) (afterOperand : Bool) :
    next ⟨inner ++ .parentheses :: s, afterOperand⟩ .comma = ⟨.parentheses :: s, false⟩ := by
  simp only [next, dropWhile_pending hinner]

end Place

/-! ### Derivations go through places -/

/-- The tokens of `input` before `rest` lead from a place where an operand may start to the end of
an expression of the layer, and in between as many more enclosures are open as `depth` says, which
counts the expression itself. -/
def Traverses (s : List Enclosure) (depth : Nat) (layer : Layer) (input rest : List Token) : Prop :=
  ∃ read inner, input = read ++ rest ∧ Pending layer inner ∧
    Place.run ⟨s, false⟩ read = ⟨inner ++ s, true⟩ ∧
    Place.deepest ⟨s, false⟩ read + 1 = s.length + depth

namespace Traverses

variable {s : List Enclosure} {n m : Nat} {layer layer' : Layer} {input middle rest : List Token}

/-- An expression of a tighter layer is one of a looser layer. -/
theorem loosen (h : Traverses s n layer' input rest) (hle : layer ≤ layer') :
    Traverses s n layer input rest := by
  obtain ⟨read, inner, hread, hinner, hrun, hdeepest⟩ := h
  exact ⟨read, inner, hread, hinner.mono hle, hrun, hdeepest⟩

theorem word {token : Token} (h : Place.next ⟨s, false⟩ token = ⟨s, true⟩) :
    Traverses s 1 .atom (token :: rest) rest :=
  ⟨[token], [], rfl, .nil _, h, by simp [Place.deepest, h]⟩

/-- An operand, a token that opens enclosures or none, and another operand. -/
theorem append {token : Token} {t : List Enclosure} {layer'' : Layer}
    (h : Traverses s n layer input (token :: middle))
    (hnext : ∀ inner, Pending layer inner →
      Place.next ⟨inner ++ s, true⟩ token = ⟨t ++ s, false⟩)
    (h' : Traverses (t ++ s) m layer' middle rest)
    (hpending : ∀ inner, Pending layer' inner → Pending layer'' (inner ++ t)) :
    Traverses s (max n (m + t.length)) layer'' input rest := by
  obtain ⟨read, inner, rfl, hinner, hrun, hdeepest⟩ := h
  obtain ⟨read', inner', rfl, hinner', hrun', hdeepest'⟩ := h'
  have hplace : Place.next ⟨inner ++ s, true⟩ token = ⟨t ++ s, false⟩ := hnext inner hinner
  refine ⟨read ++ token :: read', inner' ++ t, by simp, hpending inner' hinner', ?_, ?_⟩
  · rw [Place.run_append, hrun, Place.run_cons, hplace, hrun', List.append_assoc]
  · have hend := Place.length_run_le_deepest ⟨s, false⟩ read
    rw [hrun] at hend
    rw [Place.deepest_append, hrun, Place.deepest, hplace]
    simp only [List.length_append] at hend hdeepest' ⊢
    omega

/-- A connective with its operands: the right one has one more enclosure around it. -/
theorem join {c : Connective} (hs : inside s ≤ c.layer)
    (h : Traverses s n c.left input (c.token :: middle))
    (h' : Traverses (.operand c :: s) m c.right middle rest) :
    Traverses s (max n (m + 1)) c.layer input rest :=
  h.append (t := [.operand c]) (fun _ hinner ↦ Place.next_connective c hinner hs) h'
    fun _ hinner ↦ hinner.right

/-- Two arguments with a comma between them. -/
theorem more (h : Traverses (.parentheses :: s) n .sum input (.comma :: middle))
    (h' : Traverses (.parentheses :: s) m .sum middle rest) :
    Traverses (.parentheses :: s) (max n m) .sum input rest :=
  h.append (t := []) (fun _ hinner ↦ Place.next_comma hinner true) h'
    fun _ hinner ↦ by rwa [List.append_nil]

/-- A minus sign and its operand, which has one more enclosure around it. -/
theorem negative (h : Traverses (.sign :: s) n .signed input rest) :
    Traverses s (n + 1) .signed (.minus :: input) rest := by
  obtain ⟨read, inner, rfl, hinner, hrun, hdeepest⟩ := h
  have hnext : Place.next ⟨s, false⟩ .minus = ⟨.sign :: s, false⟩ := rfl
  refine ⟨.minus :: read, inner ++ [.sign], rfl, hinner.signed, ?_, ?_⟩
  · rw [Place.run_cons, hnext, hrun, List.append_assoc, List.singleton_append]
  · have hle := Place.length_le_deepest ⟨.sign :: s, false⟩ read
    rw [Place.deepest, hnext]
    simp only [List.length_cons] at hle hdeepest ⊢
    omega

/-- What stands in parentheses, the opening one before it included. -/
theorem parenthesized (afterOperand : Bool)
    (h : Traverses (.parentheses :: s) n .sum input (.closing :: rest)) :
    ∃ read, input = read ++ rest ∧
      Place.run ⟨s, afterOperand⟩ (.opening :: read) = ⟨s, true⟩ ∧
      Place.deepest ⟨s, afterOperand⟩ (.opening :: read) = s.length + n := by
  obtain ⟨read, inner, rfl, hinner, hrun, hdeepest⟩ := h
  have hnext : Place.next ⟨s, afterOperand⟩ .opening = ⟨.parentheses :: s, false⟩ := rfl
  have hclosing : Place.next ⟨inner ++ .parentheses :: s, true⟩ .closing = ⟨s, true⟩ :=
    Place.next_closing hinner true
  refine ⟨read ++ [.closing], by simp, ?_, ?_⟩
  · rw [Place.run_cons, hnext, Place.run_append, hrun, Place.run_cons, hclosing, Place.run_nil]
  · have hstart := Place.length_le_deepest ⟨.parentheses :: s, false⟩ read
    have hend := Place.length_run_le_deepest ⟨.parentheses :: s, false⟩ read
    rw [hrun] at hend
    rw [Place.deepest, hnext, Place.deepest_append, hrun, Place.deepest, hclosing]
    simp only [Place.deepest, List.length_append, List.length_cons] at hstart hend hdeepest ⊢
    omega

/-- A group is an operand, one enclosure deeper. -/
theorem group (h : Traverses (.parentheses :: s) n .sum input (.closing :: rest)) :
    Traverses s (n + 1) .atom (.opening :: input) rest := by
  obtain ⟨read, rfl, hrun, hdeepest⟩ := h.parenthesized false
  exact ⟨.opening :: read, [], rfl, .nil _, hrun, by omega⟩

theorem call {name : String} (h : Traverses (.parentheses :: s) n .sum input (.closing :: rest)) :
    Traverses s (n + 1) .atom (.identifier name :: .opening :: input) rest := by
  obtain ⟨read, rfl, hrun, hdeepest⟩ := h.parenthesized true
  have hnext : Place.next ⟨s, false⟩ (.identifier name) = ⟨s, true⟩ := rfl
  refine ⟨.identifier name :: .opening :: read, [], rfl, .nil _, ?_, ?_⟩
  · rw [Place.run_cons, hnext, hrun, List.nil_append]
  · rw [Place.deepest, hnext, hdeepest]
    show max s.length (s.length + n) + 1 = s.length + (n + 1)
    omega

end Traverses

/-- No operator takes no arguments. -/
theorem not_called_nil {name : String} {e : Expr} : ¬ Called name [] e := by
  rintro ⟨-, haccepts⟩
  rename_i op
  cases op <;> exact absurd haccepts (by decide)

mutual

/-- The depth of a derivation counts the enclosures that are open. -/
theorem Derives.traverses {n : Nat} {layer : Layer} {input rest : List Token} {e : Expr}
    {s : List Enclosure} :
    Derives n layer input e rest → inside s ≤ layer → Traverses s n layer input rest
  | .ofProduct h, hs => (h.traverses (Layer.le_trans hs (by decide))).loosen (by decide)
  | .ofSigned h, hs => (h.traverses (Layer.le_trans hs (by decide))).loosen (by decide)
  | .ofPower h, hs => (h.traverses (Layer.le_trans hs (by decide))).loosen (by decide)
  | .ofAtom h, hs => (h.traverses (Layer.le_trans hs (by decide))).loosen (by decide)
  | .add h h' _, hs => .join (c := .plus) hs (h.traverses hs) (h'.traverses (inside_cons_le _ s))
  | .subtract h h' _, hs =>
    .join (c := .minus) hs (h.traverses hs) (h'.traverses (inside_cons_le _ s))
  | .multiply h h' _, hs =>
    .join (c := .times) hs (h.traverses hs) (h'.traverses (inside_cons_le _ s))
  | .divide h h', hs =>
    .join (c := .dividedBy) hs (h.traverses hs) (h'.traverses (inside_cons_le _ s))
  | .power h h', hs =>
    .join (c := .caret) hs (h.traverses (Layer.le_trans hs (by decide)))
      (h'.traverses (inside_cons_le _ s))
  | .negative h _, _ => (h.traverses (inside_cons_le .sign s)).negative
  | .number, _ | .name _, _ => .word rfl
  | .callNone hcalled, _ => absurd hcalled not_called_nil
  | .call h _, _ => h.traverses.call
  | .group h, _ => (h.traverses (inside_cons_le .parentheses s)).group

/-- All arguments stand in the same parentheses. -/
theorem DerivesArguments.traverses {n : Nat} {input rest : List Token} {args : List Expr}
    {s : List Enclosure} :
    DerivesArguments n input args rest → Traverses (.parentheses :: s) n .sum input rest
  | .one h => h.traverses (inside_cons_le .parentheses s)
  | .more h h' => (h.traverses (inside_cons_le .parentheses s)).more h'.traverses

end

end Tradeoff
