import Tradeoff.Proofs.Formula.Grammar
import Tradeoff.Proofs.Formula.Spacing

/-!
# Printed fragments

A fragment is a list of pieces that the grammar derives wherever it stands and that can be printed
between other pieces (`Fragment`). Every rule of the grammar puts fragments together to a fragment,
so that what `Expr.pieces` builds can be followed rule by rule. `Fragment.parse_text` is the end of
it: the text of a fragment is read as the expression it stands for, unless its operands nest too
deeply.
-/

namespace Tradeoff

/-- The pieces stand for the expression at a layer, with operands that nest `n` levels. -/
structure Fragment (n : Nat) (layer : Layer) (ps : List Piece) (e : Expr) : Prop where
  /-- The grammar derives the expression, whatever follows. -/
  derives : ∀ rest, Derives n layer (ps.map Piece.token ++ rest) e rest
  /-- The pieces can be printed before anything that starts with a sign. -/
  separated : ∀ rest, Separated rest → startsWord rest = false → Separated (ps ++ rest)

/-- The pieces stand for the arguments of a call. -/
structure ArgumentsFragment (n : Nat) (ps : List Piece) (args : List Expr) : Prop where
  /-- The grammar derives the arguments, whatever follows. -/
  derives : ∀ rest, DerivesArguments n (ps.map Piece.token ++ rest) args rest
  /-- The pieces can be printed before anything that starts with a sign. -/
  separated : ∀ rest, Separated rest → startsWord rest = false → Separated (ps ++ rest)

/-- A sign can be printed before anything. -/
theorem Separated.sign {p : Piece} {ps : List Piece} (hsign : p.token.isWord = false)
    (h : Separated ps) : Separated (p :: ps) := by
  refine ⟨?_, fun hword ↦ ?_, h⟩
  · cases htoken : p.token <;> first | trivial | (rw [htoken] at hsign; cases hsign)
  · rw [hsign] at hword
    cases hword

theorem isWord_token (c : Connective) : c.token.isWord = false := by cases c <;> rfl

namespace Fragment

variable {n m : Nat} {layer : Layer} {ps qs : List Piece} {a b e : Expr}

/-! ### Atoms -/

/-- A numeral, which has no sign of its own. -/
theorem number {value : Float} (hfinite : value.isFinite) (habs : value.abs = value) :
    Fragment 1 .atom [⟨.number value, .tight⟩] (.number value) where
  derives _ := .number
  separated _ hrest hstart := ⟨⟨hfinite, habs⟩, fun _ ↦ hstart, hrest⟩

/-- A name that stands for something by itself. -/
theorem name {name : String} (hname : IsName name) (hnamed : Named name e) :
    Fragment 1 .atom [⟨.identifier name, .tight⟩] e where
  derives _ := .name hnamed
  separated _ hrest hstart := ⟨hname, fun _ ↦ hstart, hrest⟩

theorem parenthesized (h : Fragment n .sum ps e) :
    Fragment (n + 1) .atom (⟨.opening, .tight⟩ :: (ps ++ [⟨.closing, .tight⟩])) e where
  derives rest := by
    have hgroup := Derives.group (h.derives (.closing :: rest))
    simpa using hgroup
  separated rest hrest _ := by
    have hinner := h.separated (⟨.closing, .tight⟩ :: rest) (hrest.sign rfl) rfl
    simpa using hinner.sign (p := ⟨.opening, .tight⟩) rfl

/-! ### Operands in their places -/

/-- A fragment of a tighter layer is one of a looser layer. -/
theorem loosen {layer' : Layer} (h : Fragment n layer' ps e) (hle : layer ≤ layer') :
    Fragment n layer ps e where
  derives rest := (h.derives rest).loosen hle
  separated := h.separated

end Fragment

/-- The levels of an operand that nests `n` levels: one more in parentheses. -/
def levelsInPlace (place : Layer) (operand : Expr) (n : Nat) : Nat :=
  if place ≤ operand.layer then n else n + 1

namespace Fragment

variable {n m : Nat} {layer : Layer} {ps qs : List Piece} {a b e : Expr}

/-- An operand is put in parentheses if its layer is too loose for its place. -/
theorem inPlace {operand : Expr} (h : Fragment n operand.layer ps e) (place : Layer) :
    Fragment (levelsInPlace place operand n) place (inPlace place operand ps) e := by
  unfold levelsInPlace Tradeoff.inPlace
  split
  · next hle => exact h.loosen hle
  · have hsum : Fragment n .sum ps e := h.loosen (Nat.zero_le _)
    exact hsum.parenthesized.loosen (by cases place <;> decide)

/-- Two operands and the connective between them. -/
theorem join {c : Connective} (ha : Fragment n c.left ps a) (hb : Fragment m c.right qs b) :
    Fragment (max n (m + 1)) c.layer (ps ++ ⟨c.token, .around⟩ :: qs) (c.join a b) where
  derives rest := by
    have hjoin := (ha.derives (c.token :: (qs.map Piece.token ++ rest))).join (hb.derives rest)
    simpa using hjoin
  separated rest hrest hstart := by
    -- The connective is a sign, so that the left operand may end in a word.
    have hright := (hb.separated rest hrest hstart).sign (p := ⟨c.token, .around⟩) (isWord_token c)
    simpa using ha.separated _ hright (isWord_token c)

/-- A minus sign before an operand. -/
theorem negative (h : Fragment n .signed ps a) :
    Fragment (n + 1) .signed (⟨.minus, .tight⟩ :: ps) a.signed where
  derives rest := .negative (h.derives rest) (negated_iff.mpr rfl)
  separated rest hrest hstart := (h.separated rest hrest hstart).sign rfl

end Fragment

/-! ### Calls -/

namespace ArgumentsFragment

variable {n m : Nat} {ps qs : List Piece} {arg : Expr} {args : List Expr}

theorem one (h : Fragment n .sum ps arg) : ArgumentsFragment n ps [arg] where
  derives rest := .one (h.derives rest)
  separated := h.separated

/-- One more argument, with a comma after it. -/
theorem more (h : Fragment n .sum ps arg) (hmore : ArgumentsFragment m qs args) :
    ArgumentsFragment (max n m) (ps ++ ⟨.comma, .after⟩ :: qs) (arg :: args) where
  derives rest := by
    have hderives := DerivesArguments.more (h.derives (.comma :: (qs.map Piece.token ++ rest)))
      (hmore.derives rest)
    simpa using hderives
  separated rest hrest hstart := by
    have hright := (hmore.separated rest hrest hstart).sign (p := ⟨.comma, .after⟩) rfl
    simpa using h.separated _ hright rfl

/-- A call: its name and its arguments in parentheses. -/
theorem call {name : String} {e : Expr} (h : ArgumentsFragment n ps args) (hname : IsName name)
    (hcalled : Called name args e) :
    Fragment (n + 1) .atom (⟨.identifier name, .tight⟩ :: ⟨.opening, .tight⟩ ::
      (ps ++ [⟨.closing, .tight⟩])) e where
  derives rest := by
    have hcall := Derives.call (h.derives (.closing :: rest)) hcalled
    simpa using hcall
  separated rest hrest _ := by
    have hinner := h.separated (⟨.closing, .tight⟩ :: rest) (hrest.sign rfl) rfl
    have hopening := hinner.sign (p := ⟨.opening, .tight⟩) rfl
    exact ⟨hname, fun _ ↦ rfl, by simpa using hopening⟩

end ArgumentsFragment

/-! ### Reading a fragment -/

/-- The text of a fragment is read as what it stands for, up to the limit on nesting. -/
theorem Fragment.parse_text {n : Nat} {ps : List Piece} {e : Expr} (h : Fragment n .sum ps e) :
    if n ≤ nestingLimit then parse (String.join (ps.map Piece.text)) = .ok e
    else
      ∃ offset,
        parse (String.join (ps.map Piece.text)) = .error ⟨.tooDeep nestingLimit, offset⟩ := by
  have hseparated : Separated ps := by simpa using h.separated [] trivial rfl
  obtain ⟨lexemes, hscan, htokens⟩ := scan_join_of_separated hseparated
  have hderives : Derives n .sum (tokens lexemes) e [] := by
    rw [htokens]
    simpa using h.derives []
  rw [parse_eq_parseLexemes hscan]
  split
  · next hn => exact parseLexemes_eq_ok_iff_derives.mpr ⟨n, hn, hderives⟩
  · next hn => exact hderives.parseLexemes_tooDeep (by omega)

end Tradeoff
