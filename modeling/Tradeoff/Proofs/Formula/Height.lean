import Tradeoff.Proofs.Formula.RoundTrip

/-!
# How high the expressions of formulas are

Reading bounds how deep operands nest, and so it bounds the height of what is read, but for
quotients. Sums and products take any number of operands into one operation, whereas a quotient has
two: a formula of many divisions in a row nests no operand and is as high as it has divisions
(`parse_quotientChain`). A level of nesting adds at most four to the height, and a quotient at most
two, one for itself and one for a product that starts with it (`Derives.height_le`). There are never
more quotients above one another than division signs in the formula (`Derives.quotients_le`).
-/

namespace Tradeoff

/-! ### Quotients above one another -/

namespace Expr

mutual

/-- The greatest number of quotients on one way from the root to a leaf. -/
def quotients : Expr → Nat
  | .literal _ | .symbol _ => 0
  | .operation op args => quotientsList args + if op = .divide then 1 else 0

/-- The greatest number of quotients in a list of expressions; zero for none. -/
def quotientsList : List Expr → Nat
  | [] => 0
  | arg :: args => max (quotients arg) (quotientsList args)

end

/-- Two lists of arguments are as high as the higher one. -/
theorem heightList_append (args more : List Expr) :
    heightList (args ++ more) = max (heightList args) (heightList more) := by
  induction args with
  | nil => simp [heightList]
  | cons arg args ih => simp [heightList, ih, Nat.max_assoc]

/-- Two lists of arguments have the quotients of the one that has more above one another. -/
theorem quotientsList_append (args more : List Expr) :
    quotientsList (args ++ more) = max (quotientsList args) (quotientsList more) := by
  induction args with
  | nil => simp [quotientsList]
  | cons arg args ih => simp [quotientsList, ih, Nat.max_assoc]

section

variable (op : Operator) (args : List Expr) (a b : Expr)

theorem height_single : (operation op [a]).height = a.height + 1 := by
  simp [height, heightList]

theorem height_pair : (operation op [a, b]).height = max a.height b.height + 1 := by
  simp [height, heightList]

theorem height_concat : (operation op (args ++ [b])).height =
    max (operation op args).height (b.height + 1) := by
  simp [height, heightList, heightList_append, Nat.add_max_add_right]

variable {op}

/-- An operation that is no quotient has the quotients of its arguments. -/
theorem quotients_operation (h : op ≠ .divide) :
    (operation op args).quotients = quotientsList args := by
  rw [quotients, if_neg h, Nat.add_zero]

theorem quotients_single (h : op ≠ .divide) : (operation op [a]).quotients = a.quotients := by
  simp [quotients_operation _ h, quotientsList]

theorem quotients_pair (h : op ≠ .divide) :
    (operation op [a, b]).quotients = max a.quotients b.quotients := by
  simp [quotients_operation _ h, quotientsList]

/-- A quotient is one more than those in its operands. -/
theorem quotients_divide :
    (operation .divide [a, b]).quotients = max a.quotients b.quotients + 1 := by
  simp [quotients, quotientsList]

/-- One more argument of another operation counts like those before it. -/
theorem quotients_concat (h : op ≠ .divide) : (operation op (args ++ [b])).quotients =
    max (operation op args).quotients b.quotients := by
  simp [quotients_operation _ h, quotientsList, quotientsList_append]

end

end Expr

/-! ### What a layer adds to the height -/

namespace Layer

/-- How much higher than four for each level around it an expression of the layer can be, quotients
apart. A sum takes a further term without growing, and so does a product a factor. -/
def growth : Layer → Expr → Nat
  | .atom, _ => 1
  | .power, _ | .signed, _ => 2
  | .product, .operation .multiply _ => 3
  | .product, _ => 2
  | .sum, .operation .add _ => 4
  | .sum, _ => 3

/-- Three for a product that can take another factor, and two for anything else. -/
theorem growth_product (e : Expr) : growth .product e = 3 ∨ growth .product e = 2 := by
  unfold growth
  split <;> simp_all

/-- Four for a sum that can take another term, and three for anything else. -/
theorem growth_sum (e : Expr) : growth .sum e = 4 ∨ growth .sum e = 3 := by
  unfold growth
  split <;> simp_all

/-- Two for what is no such product. -/
theorem growth_product_of_ne {e : Expr} (h : ∀ args, e ≠ .operation .multiply args) :
    growth .product e = 2 := by
  unfold growth
  split <;> simp_all

/-- Three for what is no such sum. -/
theorem growth_sum_of_ne {e : Expr} (h : ∀ args, e ≠ .operation .add args) :
    growth .sum e = 3 := by
  unfold growth
  split <;> simp_all

end Layer

/-- The expression is no higher than reading allows it to be, at the layer, with operands that nest
`n` levels and with so many quotients above one another. -/
def HeightWithin (n : Nat) (layer : Layer) (quotients : Nat) (e : Expr) : Prop :=
  e.height + 4 ≤ 4 * n + layer.growth e + 2 * quotients

/-! ### Building trees -/

namespace HeightWithin

variable {n m q r : Nat} {a b e : Expr}

/-- A product is within the bound of a sum. -/
theorem ofProduct (h : HeightWithin n .product q e) : HeightWithin n .sum q e := by
  unfold HeightWithin at h ⊢
  have hproduct := Layer.growth_product e
  have hsum := Layer.growth_sum e
  omega

/-- A signed operand is within the bound of a product. -/
theorem ofSigned (h : HeightWithin n .signed q e) : HeightWithin n .product q e := by
  unfold HeightWithin at h ⊢
  have hproduct := Layer.growth_product e
  have hsigned : Layer.growth .signed e = 2 := rfl
  omega

/-- An atom is within the bound of a power. -/
theorem ofAtom (h : HeightWithin n .atom q e) : HeightWithin n .power q e := by
  have hatom : e.height + 4 ≤ 4 * n + 1 + 2 * q := h
  show e.height + 4 ≤ 4 * n + 2 + 2 * q
  omega

/-- The operand after a connective of sums or of products, and the operation that it joins. The
operation grows only if the first operand is no such operation yet. -/
theorem extended {op : Operator} {layer : Layer} {growth : Nat} (ha : HeightWithin n layer q a)
    (hb : b.height ≤ 4 * m + 2 * r) (he : Extended op a b e)
    (hsame : ∀ args, layer.growth (.operation op args) = growth + 1)
    (hother : (∀ args, a ≠ .operation op args) → layer.growth a = growth) :
    HeightWithin (max n (m + 1)) layer (max q r) e := by
  unfold HeightWithin at ha ⊢
  cases he with
  | append =>
    rw [hsame] at ha ⊢
    rw [Expr.height_concat]
    omega
  | pair hne =>
    rw [hother hne] at ha
    rw [hsame, Expr.height_pair]
    omega

/-- The bound of a sum leaves room for one more summand, whether it extends the sum or starts
one. -/
theorem add (ha : HeightWithin n .sum q a) (hb : HeightWithin m .product r b)
    (he : Extended .add a b e) : HeightWithin (max n (m + 1)) .sum (max q r) e := by
  have hgrowth := Layer.growth_product b
  unfold HeightWithin at hb
  exact ha.extended (by omega) he (fun _ ↦ rfl) Layer.growth_sum_of_ne

/-- A subtracted product is a negated summand. -/
theorem subtract (ha : HeightWithin n .sum q a) (hb : HeightWithin m .product r b)
    (he : Extended .add a (.operation .negate [b]) e) :
    HeightWithin (max n (m + 1)) .sum (max q r) e := by
  have hgrowth := Layer.growth_product b
  unfold HeightWithin at hb
  refine ha.extended ?_ he (fun _ ↦ rfl) Layer.growth_sum_of_ne
  rw [Expr.height_single]
  omega

/-- The bound of a product leaves room for one more factor. -/
theorem multiply (ha : HeightWithin n .product q a) (hb : HeightWithin m .signed r b)
    (he : Extended .multiply a b e) : HeightWithin (max n (m + 1)) .product (max q r) e := by
  have hfactor : b.height + 4 ≤ 4 * m + 2 + 2 * r := hb
  exact ha.extended (by omega) he (fun _ ↦ rfl) Layer.growth_product_of_ne

/-- A quotient pays for itself and for the product that may become of its dividend. -/
theorem divide (ha : HeightWithin n .product q a) (hb : HeightWithin m .signed r b) :
    HeightWithin (max n (m + 1)) .product (max q r + 1) (.operation .divide [a, b]) := by
  have hdivisor : b.height + 4 ≤ 4 * m + 2 + 2 * r := hb
  have hgrowth := Layer.growth_product a
  unfold HeightWithin at ha ⊢
  rw [Expr.height_pair]
  show _ ≤ 4 * max n (m + 1) + 2 + _
  omega

/-- A minus sign is a level of nesting, which allows for more than the height it adds. -/
theorem negative (h : HeightWithin n .signed q a) (he : Negated a e) :
    HeightWithin (n + 1) .signed q e := by
  have hoperand : a.height + 4 ≤ 4 * n + 2 + 2 * q := h
  show e.height + 4 ≤ 4 * (n + 1) + 2 + 2 * q
  cases he with
  | number =>
    show 0 + 4 ≤ _
    omega
  | operation =>
    rw [Expr.height_single]
    omega

theorem power (ha : HeightWithin n .atom q a) (hb : HeightWithin m .signed r b) :
    HeightWithin (max n (m + 1)) .power (max q r) (.operation .power [a, b]) := by
  have hbase : a.height + 4 ≤ 4 * n + 1 + 2 * q := ha
  have hexponent : b.height + 4 ≤ 4 * m + 2 + 2 * r := hb
  show _ ≤ 4 * max n (m + 1) + 2 + _
  rw [Expr.height_pair]
  omega

theorem leaf (h : e.height = 0) : HeightWithin 1 .atom 0 e := by
  show e.height + 4 ≤ 4 * 1 + 1 + 2 * 0
  omega

/-- A call is a level of nesting, whatever arguments it has. -/
theorem called {name : String} {args : List Expr} (h : Called name args e)
    (hargs : Expr.heightList args ≤ 4 * n + 2 * q) : HeightWithin (n + 1) .atom q e := by
  cases h with
  | operation =>
    show _ ≤ 4 * (n + 1) + 1 + _
    rw [Expr.height]
    omega

/-- A sum in parentheses or as an argument. -/
theorem height_le (h : HeightWithin n .sum q e) : e.height ≤ 4 * n + 2 * q := by
  have hgrowth := Layer.growth_sum e
  unfold HeightWithin at h
  omega

/-- A group is a level of nesting and adds no height. -/
theorem group (h : HeightWithin n .sum q e) : HeightWithin (n + 1) .atom q e := by
  have hheight := h.height_le
  show _ ≤ 4 * (n + 1) + 1 + _
  omega

end HeightWithin

/-- Extending an operation joins the quotients of both operands, unless it is a quotient. -/
theorem Extended.quotients_eq {op : Operator} {a b e : Expr} (h : Extended op a b e)
    (hop : op ≠ .divide) : e.quotients = max a.quotients b.quotients := by
  cases h with
  | append => exact Expr.quotients_concat _ _ hop
  | pair => exact Expr.quotients_pair _ _ hop

/-- A negated operand has the quotients of the operand. -/
theorem Negated.quotients_eq {a e : Expr} (h : Negated a e) : e.quotients = a.quotients := by
  cases h with
  | number => rfl
  | operation => exact Expr.quotients_single _ (by decide)

/-- A call has at least the quotients of its arguments. -/
theorem Called.quotientsList_le {name : String} {args : List Expr} {e : Expr}
    (h : Called name args e) : Expr.quotientsList args ≤ e.quotients := by
  cases h with
  | operation =>
    rw [Expr.quotients]
    exact Nat.le_add_right _ _

/-! ### Derivations -/

/-- Among the quotients of a tree some satisfy the property and were written with division signs
among the tokens up to the rest. -/
def DividedUpTo (input rest : List Token) (quotients : Nat) (within : Nat → Prop) : Prop :=
  ∃ q, q ≤ quotients ∧ q + rest.count .slash ≤ input.count .slash ∧ within q

namespace DividedUpTo

variable {input middle rest : List Token} {token : Token} {quotients quotients' all : Nat}
  {within within' both : Nat → Prop}

/-- More quotients may be allowed for, and the property may be weaker. -/
theorem imp (h : DividedUpTo input rest quotients within) (hall : quotients ≤ all)
    (hwithin : ∀ q, within q → within' q) : DividedUpTo input rest all within' := by
  obtain ⟨q, hq, hcount, hw⟩ := h
  exact ⟨q, hq.trans hall, hcount, hwithin q hw⟩

/-- Two parts with a token between them. -/
theorem join (h : DividedUpTo input (token :: middle) quotients within)
    (h' : DividedUpTo middle rest quotients' within') (hall : max quotients quotients' ≤ all)
    (hboth : ∀ q r, within q → within' r → both (max q r)) :
    DividedUpTo input rest all both := by
  obtain ⟨q, hq, hcount, hw⟩ := h
  obtain ⟨r, hr, hcount', hw'⟩ := h'
  have hmiddle := List.count_le_count_cons (a := Token.slash) (b := token) (l := middle)
  exact ⟨max q r, by omega, by omega, hboth q r hw hw'⟩

/-- Two parts with a division sign between them. -/
theorem divide (h : DividedUpTo input (.slash :: middle) quotients within)
    (h' : DividedUpTo middle rest quotients' within') (hall : max quotients quotients' + 1 ≤ all)
    (hboth : ∀ q r, within q → within' r → both (max q r + 1)) :
    DividedUpTo input rest all both := by
  obtain ⟨q, hq, hcount, hw⟩ := h
  obtain ⟨r, hr, hcount', hw'⟩ := h'
  rw [List.count_cons_self] at hcount
  exact ⟨max q r + 1, by omega, by omega, hboth q r hw hw'⟩

/-- One more token in front takes no division sign away. -/
theorem cons (h : DividedUpTo input rest quotients within) :
    DividedUpTo (token :: input) rest quotients within := by
  obtain ⟨q, hq, hcount, hw⟩ := h
  exact ⟨q, hq, hcount.trans List.count_le_count_cons, hw⟩

theorem concat (h : DividedUpTo input (token :: rest) quotients within) :
    DividedUpTo input rest quotients within := by
  obtain ⟨q, hq, hcount, hw⟩ := h
  have hrest := List.count_le_count_cons (a := Token.slash) (b := token) (l := rest)
  exact ⟨q, hq, by omega, hw⟩

theorem nil (h : within 0) : DividedUpTo rest rest quotients within :=
  ⟨0, Nat.zero_le _, by omega, h⟩

end DividedUpTo

mutual

/-- By induction on the derivation: a rule that goes to a looser layer or one level deeper leaves
room for the operation that it builds, and a division sign pays for a quotient. -/
theorem Derives.dividedUpTo {n : Nat} {layer : Layer} {input rest : List Token} {e : Expr} :
    Derives n layer input e rest →
      DividedUpTo input rest e.quotients (HeightWithin n layer · e)
  | .ofProduct h => h.dividedUpTo.imp le_rfl fun _ ↦ .ofProduct
  | .ofSigned h => h.dividedUpTo.imp le_rfl fun _ ↦ .ofSigned
  | .ofPower h => h.dividedUpTo.imp le_rfl fun _ h ↦ h
  | .ofAtom h => h.dividedUpTo.imp le_rfl fun _ ↦ .ofAtom
  | .add ha hb he => ha.dividedUpTo.join hb.dividedUpTo (he.quotients_eq (by decide)).ge
      fun _ _ ha hb ↦ ha.add hb he
  | .subtract ha hb he => by
    have hquotients := he.quotients_eq (by decide)
    rw [Expr.quotients_single _ (by decide)] at hquotients
    exact ha.dividedUpTo.join hb.dividedUpTo hquotients.ge fun _ _ ha hb ↦ ha.subtract hb he
  | .multiply ha hb he => ha.dividedUpTo.join hb.dividedUpTo (he.quotients_eq (by decide)).ge
      fun _ _ ha hb ↦ ha.multiply hb he
  | .divide ha hb => ha.dividedUpTo.divide hb.dividedUpTo (Expr.quotients_divide _ _).ge
      fun _ _ ha hb ↦ ha.divide hb
  | .negative h he => (h.dividedUpTo.imp he.quotients_eq.ge fun _ h ↦ h.negative he).cons
  | .power ha hb =>
    ha.dividedUpTo.join hb.dividedUpTo (Expr.quotients_pair _ _ (by decide)).ge
      fun _ _ ha hb ↦ ha.power hb
  | .number => (DividedUpTo.nil (.leaf rfl)).cons
  | .name hname => (DividedUpTo.nil (.leaf (by cases hname <;> rfl))).cons
  | .callNone hcalled => (DividedUpTo.nil (.called (n := 0) hcalled (Nat.zero_le _))).cons.cons.cons
  | .call hargs hcalled =>
    ((hargs.dividedUpTo.imp hcalled.quotientsList_le fun _ h ↦ .called hcalled h).concat).cons.cons
  | .group h => (h.dividedUpTo.imp le_rfl fun _ h ↦ h.group).concat.cons

/-- The quotients in arguments were written with division signs among their tokens. -/
theorem DerivesArguments.dividedUpTo {n : Nat} {input rest : List Token} {args : List Expr} :
    DerivesArguments n input args rest →
      DividedUpTo input rest (Expr.quotientsList args) (Expr.heightList args ≤ 4 * n + 2 * ·)
  | .one h => h.dividedUpTo.imp (by simp [Expr.quotientsList]) fun _ h ↦ by
      have hheight := h.height_le
      simpa [Expr.heightList] using hheight
  | .more h hmore =>
    h.dividedUpTo.join hmore.dividedUpTo (by simp [Expr.quotientsList]) fun q r h hmore ↦ by
      have hheight := h.height_le
      rw [Expr.heightList]
      omega

end

/-! ### Division signs of a formula -/

/-- A division sign is read from nothing but its character. -/
theorem Token.eq_of_read_slash {c : Char} {cs chars : List Char}
    (h : Token.read c cs = .ok (.slash, chars)) : c = '/' := by
  unfold Token.read at h
  split at h
  · next token htoken =>
    obtain ⟨rfl, -⟩ := Prod.mk.inj (Except.ok.inj h)
    unfold Token.ofChar? at htoken
    split at htoken <;> simp_all
  · grind

/-- Every token of a division sign is the character in the text. -/
theorem count_slash_scanFrom {cs : List Char} {offset : Nat} {lexemes : List Lexeme}
    (h : scanFrom cs offset = .ok lexemes) : (tokens lexemes).count .slash ≤ cs.count '/' := by
  fun_induction scanFrom cs offset generalizing lexemes with
  | case1 =>
    cases h
    exact le_rfl
  | case2 offset c cs hblank ih => exact (ih h).trans List.count_le_count_cons
  | case3 => cases h
  | case4 => cases h
  | case5 offset c cs hblank token chars hread lexemes hrest ih =>
    cases h
    have hcount := (ih hrest).trans ((List.drop_sublist _ _).count_le '/')
    rw [tokens_cons]
    by_cases hslash : token = .slash
    · rw [hslash] at hread ⊢
      rw [Token.eq_of_read_slash hread, List.count_cons_self, List.count_cons_self]
      exact Nat.succ_le_succ hcount
    · rw [List.count_cons_of_ne hslash]
      exact hcount.trans List.count_le_count_cons

/-- What is read from a formula is at most four times as high as operands may nest, but for
quotients: for each of those on a way to a leaf, as far as there are division signs for them, it may
be two higher. -/
theorem height_le_of_parse {formula : String} {e : Expr} (h : parse formula = .ok e) :
    e.height ≤ 4 * nestingLimit + 2 * e.quotients ∧
      e.height ≤ 4 * nestingLimit + 2 * formula.toList.count '/' := by
  rcases hscan : scan formula with error | lexemes
  · rw [parse, parseWithin, hscan] at h
    cases h
  · rw [parse_eq_parseLexemes hscan] at h
    obtain ⟨n, hn, hderives⟩ := parseLexemes_eq_ok_iff_derives.mp h
    obtain ⟨q, hquotients, hsigns, hwithin⟩ := hderives.dividedUpTo
    have hheight := hwithin.height_le
    have hcount := count_slash_scanFrom hscan
    rw [List.count_nil] at hsigns
    exact ⟨by omega, by omega⟩

theorem height_le_of_parse_quotients :
    parse "a / b * c / -d" = .ok (.divide (.multiply (.divide (.symbol "a") (.symbol "b"))
      (.symbol "c")) (.negate (.symbol "d"))) ∧
    3 ≤ 4 * nestingLimit + 2 * 2 ∧
    3 ≤ 4 * nestingLimit + 2 * "a / b * c / -d".toList.count '/' := by
  have hparse : parse "a / b * c / -d" = .ok (.divide (.multiply (.divide (.symbol "a")
      (.symbol "b")) (.symbol "c")) (.negate (.symbol "d"))) := by cbv
  exact ⟨hparse, height_le_of_parse hparse⟩

/-! ### Many divisions in a row -/

namespace Expr

/-- A symbol that is divided by itself so many times. -/
def quotientChain : Nat → Expr
  | 0 => .symbol "x"
  | n + 1 => .divide (quotientChain n) (.symbol "x")

/-- A chain is as high as it has divisions. -/
theorem height_quotientChain (n : Nat) : (quotientChain n).height = n := by
  induction n with
  | zero => rfl
  | succ n ih => rw [quotientChain, divide, height_pair, ih, height, Nat.max_zero]

/-- Chains are printed as they are read: each is a quotient of two operands. -/
theorem printable_quotientChain (n : Nat) : (quotientChain n).Printable := by
  have hsymbol : (symbol "x").Printable := printable_symbol rfl
  induction n with
  | zero => exact hsymbol
  | succ n ih =>
    rw [quotientChain, divide, printable_operation, List.forall_mem_cons,
      List.forall_mem_singleton]
    exact ⟨rfl, ih, hsymbol⟩

theorem normalize_quotientChain (n : Nat) : (quotientChain n).normalize = quotientChain n := by
  induction n with
  | zero => rfl
  | succ n ih =>
    rw [quotientChain, divide, normalize_operation (by decide), List.map_cons, ih]
    rfl

/-- A chain is a product in layers, so it stands without parentheses to the left of a division
sign. -/
theorem product_le_layer_quotientChain (n : Nat) : .product ≤ (quotientChain n).layer := by
  cases n with
  | zero => decide
  | succ n => exact Layer.le_refl _

/-- The operands of the chain stand beside one another and not in one another. -/
theorem levels_quotientChain_le (n : Nat) : (quotientChain n).levels ≤ 2 := by
  induction n with
  | zero => decide
  | succ n ih =>
    rw [quotientChain, divide, levels, levelsInPlace_of_le (product_le_layer_quotientChain n)]
    exact Nat.max_le.mpr ⟨ih, by decide⟩

/-- The text of a chain is a symbol and then a division for each level. -/
theorem text_quotientChain (n : Nat) :
    (quotientChain n).text = String.join ("x" :: List.replicate n " / x") := by
  induction n with
  | zero => decide
  | succ n ih =>
    have hpieces : (quotientChain (n + 1)).pieces =
        (quotientChain n).pieces ++ [⟨.slash, .around⟩, ⟨.identifier "x", .tight⟩] := by
      rw [quotientChain, divide, pieces, inPlace, if_pos (product_le_layer_quotientChain n)]
      rfl
    have hlast : String.join ([⟨.slash, .around⟩, ⟨.identifier "x", .tight⟩].map Piece.text) =
        " / x" := by decide
    rw [text, hpieces, List.map_append, String.join_append, ← text, ih, hlast,
      List.replicate_succ', ← List.cons_append, String.join_append]
    simp

/-- Divisions in a row nest no operand: the formula is read whatever its length. -/
theorem parse_quotientChain (n : Nat) :
    parse (String.join ("x" :: List.replicate n " / x")) = .ok (quotientChain n) := by
  rw [← text_quotientChain, parse_text_eq_ok_iff (printable_quotientChain n)]
  have hlevels := levels_quotientChain_le n
  exact ⟨hlevels.trans (by decide), (normalize_quotientChain n).symm⟩

/-- Nesting bounds no height by itself: a formula of 1025 divisions is read, higher than four times
the limit, and longer ones are as much higher as one likes. -/
theorem exists_parse_too_high :
    (parse (String.join ("x" :: List.replicate 1025 " / x")) = .ok (quotientChain 1025) ∧
      ¬ (quotientChain 1025).height ≤ 4 * nestingLimit) ∧
    ¬ ∃ bound, ∀ formula e, parse formula = .ok e → e.height ≤ bound := by
  refine ⟨⟨parse_quotientChain 1025, ?_⟩, ?_⟩
  · rw [height_quotientChain]
    decide
  · rintro ⟨bound, hbound⟩
    have hheight := hbound _ _ (parse_quotientChain (bound + 1))
    rw [height_quotientChain] at hheight
    omega

end Expr

end Tradeoff
