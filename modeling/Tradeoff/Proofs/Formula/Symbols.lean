import Tradeoff.Proofs.Expr.ArrayForm
import Tradeoff.Proofs.Formula.Lexemes
import Tradeoff.Proofs.Table.Labels

/-!
# The symbols of a formula

The symbols that an expression mentions are names in the formula that it was read from: all of them,
in their order, but those of calls and of the truth values (`mentions_eq_of_parse`). Since a name
among the lexemes is an identifier or a truth value, only identifiers are mentioned.

So the identifiers are exactly the formulas for their own symbols
(`isIdentifier_iff_parse_eq_symbol`). A formula such as `(x)` stands for a symbol as well, but for
that of another name; and the label of a component stands for no symbol.
-/

namespace Tradeoff

/-! ### Symbols of trees -/

namespace Expr

/-- The symbols of two lists of arguments are those of the first and those of the second. -/
theorem mentionsList_append (args args' : List Expr) :
    mentionsList (args ++ args') = mentionsList args ++ mentionsList args' := by
  induction args with
  | nil => rfl
  | cons arg args ih => rw [List.cons_append, mentionsList, mentionsList, ih, List.append_assoc]

theorem mentions_single (op : Operator) (a : Expr) : (operation op [a]).mentions = a.mentions := by
  rw [mentions, mentionsList, mentionsList, List.append_nil]

theorem mentions_pair (op : Operator) (a b : Expr) :
    (operation op [a, b]).mentions = a.mentions ++ b.mentions := by
  rw [mentions, mentionsList, mentionsList, mentionsList, List.append_nil]

end Expr

/-- An extended operation mentions what its operands mention, in order. -/
theorem Extended.mentions_eq {op : Operator} {a b e : Expr} (h : Extended op a b e) :
    e.mentions = a.mentions ++ b.mentions := by
  obtain _ | _ := h
  · rw [Expr.mentions, Expr.mentions, Expr.mentionsList_append, Expr.mentionsList,
      Expr.mentionsList, List.append_nil]
  · exact Expr.mentions_pair op a b

/-- A negated operand mentions what the operand mentions. -/
theorem Negated.mentions_eq {a e : Expr} (h : Negated a e) : e.mentions = a.mentions := by
  obtain _ | _ := h
  · rfl
  · exact Expr.mentions_single .negate a

/-- A call mentions what its arguments mention. Its name is no symbol. -/
theorem Called.mentions_eq {name : String} {args : List Expr} {e : Expr}
    (h : Called name args e) : e.mentions = Expr.mentionsList args := by
  obtain ⟨-, -⟩ := h
  rw [Expr.mentions]

/-! ### Names of symbols -/

/-- The names among the tokens that stand for symbols. No parenthesis follows them, and they are no
truth values. -/
def symbolNames : List Token → List String
  | [] => []
  | .identifier name :: rest =>
    if rest.head? = some .opening ∨ name = "true" ∨ name = "false" then symbolNames rest
    else name :: symbolNames rest
  | _ :: rest => symbolNames rest

/-- Signs have no names. -/
theorem symbolNames_cons {token : Token} (h : token.isWord = false) (ts : List Token) :
    symbolNames (token :: ts) = symbolNames ts := by
  cases token with
  | number value => cases h
  | identifier name => cases h
  | _ => rfl

/-- Only a parenthesis makes a difference to a name before it. -/
theorem symbolNames_append_cons {token : Token} (h : token ≠ .opening) (ts ts' : List Token) :
    symbolNames (ts ++ token :: ts') = symbolNames ts ++ symbolNames (token :: ts') := by
  induction ts with
  | nil => rfl
  | cons first ts ih =>
    have hnext : (ts ++ token :: ts').head? = some .opening ↔ ts.head? = some .opening := by
      rcases ts with - | ⟨next, ts⟩ <;> simp [h]
    cases first with
    | identifier name =>
      rw [List.cons_append, symbolNames, symbolNames, ih]
      simp only [hnext]
      split <;> rfl
    | _ => exact ih

/-- A name of a symbol is one of the names, and no truth value. -/
theorem of_mem_symbolNames {ts : List Token} {name : String} (h : name ∈ symbolNames ts) :
    .identifier name ∈ ts ∧ name ≠ "true" ∧ name ≠ "false" := by
  induction ts with
  | nil => exact absurd h List.not_mem_nil
  | cons token ts ih =>
    have hlater (h : name ∈ symbolNames ts) :
        .identifier name ∈ token :: ts ∧ name ≠ "true" ∧ name ≠ "false" :=
      ⟨List.mem_cons_of_mem _ (ih h).1, (ih h).2⟩
    cases token with
    | identifier name' =>
      rw [symbolNames] at h
      split at h
      · exact hlater h
      · next hstands =>
        rcases List.mem_cons.mp h with rfl | h
        · exact ⟨List.mem_cons_self, not_or.mp (not_or.mp hstands).2⟩
        · exact hlater h
    | _ => exact hlater h

/-- The tokens up to the rest have these names of symbols. -/
def NamesUpTo (input rest : List Token) (symbols : List String) : Prop :=
  ∃ used, input = used ++ rest ∧ symbolNames used = symbols

namespace NamesUpTo

variable {input middle rest : List Token} {token : Token} {symbols symbols' : List String}

theorem nil (rest : List Token) : NamesUpTo rest rest [] := ⟨[], rfl, rfl⟩

/-- Two parts with a sign between them. -/
theorem join (h : NamesUpTo input (token :: middle) symbols)
    (h' : NamesUpTo middle rest symbols') (hsign : token.isWord = false)
    (hopening : token ≠ .opening) : NamesUpTo input rest (symbols ++ symbols') := by
  obtain ⟨used, rfl, rfl⟩ := h
  obtain ⟨used', rfl, rfl⟩ := h'
  refine ⟨used ++ token :: used', by simp, ?_⟩
  rw [symbolNames_append_cons hopening, symbolNames_cons hsign]

/-- A sign after the part. -/
theorem concat (h : NamesUpTo input (token :: rest) symbols) (hsign : token.isWord = false)
    (hopening : token ≠ .opening) : NamesUpTo input rest symbols := by
  have hjoined := h.join (nil rest) hsign hopening
  rwa [List.append_nil] at hjoined

/-- A sign before the part. -/
theorem cons (h : NamesUpTo input rest symbols) (hsign : token.isWord = false) :
    NamesUpTo (token :: input) rest symbols := by
  obtain ⟨used, rfl, rfl⟩ := h
  exact ⟨token :: used, rfl, symbolNames_cons hsign used⟩

/-- The name of a call before its arguments. -/
theorem call (h : NamesUpTo input rest symbols) (name : String) :
    NamesUpTo (.identifier name :: .opening :: input) rest symbols := by
  obtain ⟨used, rfl, rfl⟩ := h
  have hcalled : (Token.opening :: used).head? = some .opening := rfl
  refine ⟨.identifier name :: .opening :: used, rfl, ?_⟩
  rw [symbolNames, if_pos (Or.inl hcalled), symbolNames_cons rfl]

end NamesUpTo

/-- A name by itself is that of the symbol it stands for, or of no symbol if it is a truth value. -/
theorem Named.symbolNames_eq {name : String} {e : Expr} (h : Named name e) :
    symbolNames [.identifier name] = e.mentions := by
  obtain _ | _ | ⟨htrue, hfalse⟩ := h
  · rfl
  · rfl
  · simp [symbolNames, htrue, hfalse, Expr.mentions]

/-! ### Derivations -/

mutual

/-- By induction on the derivation: trees mention what their parts do, from left to right. -/
theorem Derives.namesUpTo {n : Nat} {layer : Layer} {input rest : List Token} {e : Expr} :
    Derives n layer input e rest → NamesUpTo input rest e.mentions
  | .ofProduct h | .ofSigned h | .ofPower h | .ofAtom h => h.namesUpTo
  | .add ha hb he | .multiply ha hb he =>
    he.mentions_eq ▸ ha.namesUpTo.join hb.namesUpTo rfl nofun
  | .subtract ha hb he => by
    rw [he.mentions_eq, Expr.mentions_single]
    exact ha.namesUpTo.join hb.namesUpTo rfl nofun
  | .divide ha hb | .power ha hb =>
    Expr.mentions_pair _ _ _ ▸ ha.namesUpTo.join hb.namesUpTo rfl nofun
  | .negative ha he => he.mentions_eq ▸ ha.namesUpTo.cons rfl
  | .number => ⟨[_], rfl, rfl⟩
  | .name hname => ⟨[_], rfl, hname.symbolNames_eq⟩
  | .callNone hcalled => hcalled.mentions_eq ▸ ((NamesUpTo.nil _).cons rfl).call _
  | .call hargs hcalled => hcalled.mentions_eq ▸ (hargs.namesUpTo.concat rfl nofun).call _
  | .group h => (h.namesUpTo.concat rfl nofun).cons rfl

/-- The symbols of arguments are named in order. -/
theorem DerivesArguments.namesUpTo {n : Nat} {input rest : List Token} {args : List Expr} :
    DerivesArguments n input args rest → NamesUpTo input rest (Expr.mentionsList args)
  | .one h => by
    rw [Expr.mentionsList, Expr.mentionsList, List.append_nil]
    exact h.namesUpTo
  | .more h hmore => h.namesUpTo.join hmore.namesUpTo rfl nofun

end

/-- An expression mentions the symbols that its formula names, in their order. -/
theorem mentions_eq_of_parse {formula : String} {lexemes : List Lexeme} {e : Expr}
    (hscan : scan formula = .ok lexemes) (h : parse formula = .ok e) :
    e.mentions = symbolNames (tokens lexemes) := by
  rw [parse_eq_parseLexemes hscan] at h
  obtain ⟨n, -, hderives⟩ := parseLexemes_eq_ok_iff_derives.mp h
  obtain ⟨used, hused, hnames⟩ := hderives.namesUpTo
  rw [List.append_nil] at hused
  rw [hused, hnames]

/-! ### Identifiers -/

/-- Every identifier among the tokens of a formula has been scanned as a name. -/
theorem isName_of_mem_tokens {text : String} {lexemes : List Lexeme}
    (hscan : scan text = .ok lexemes) {name : String} (h : .identifier name ∈ tokens lexemes) :
    IsName name := by
  obtain ⟨lexeme, hlexeme, htoken⟩ := List.mem_map.mp h
  obtain ⟨before, chars, after, -, -, hread⟩ := (scan_eq_ok_iff.mp hscan).exists_of_mem hlexeme
  rw [htoken] at hread
  cases hread with
  | sign hword => cases hword
  | identifier hlongest => exact hlongest.holds

/-- A name is an identifier unless it is a truth value. -/
theorem isIdentifier_of_isName {name : String} (h : IsName name) (htrue : name ≠ "true")
    (hfalse : name ≠ "false") : isIdentifier name := by
  obtain ⟨c, cs, htext, hstart, hrest⟩ := h
  have hall : cs.all isIdentifierRest = true := List.all_eq_true.mpr hrest
  simp [isIdentifier, htext, hstart, hall, htrue, hfalse]

/-- What an expression mentions that was read from a formula is an identifier. -/
theorem isIdentifier_of_parse {formula : String} {e : Expr} (h : parse formula = .ok e)
    {symbol : String} (hsymbol : symbol ∈ e.mentions) : isIdentifier symbol := by
  rcases hscan : scan formula with error | lexemes
  · rw [parse, parseWithin, hscan] at h
    cases h
  · rw [mentions_eq_of_parse hscan h] at hsymbol
    obtain ⟨hmem, htrue, hfalse⟩ := of_mem_symbolNames hsymbol
    exact isIdentifier_of_isName (isName_of_mem_tokens hscan hmem) htrue hfalse

theorem isIdentifier_of_parse_eq_symbol {formula name : String}
    (h : parse formula = .ok (.symbol name)) : isIdentifier name :=
  isIdentifier_of_parse h List.mem_cons_self

theorem Expr.text_symbol (name : String) : (Expr.symbol name).text = name := rfl

/-- **Identifiers are the formulas for their own symbols.** A name is an identifier exactly if it is
read as the symbol of this name. A symbol is printed as its name, so that it is read back exactly if
the name is an identifier. The label of a component is never one, whatever the symbol and the index
are, and it tells both of them. -/
theorem isIdentifier_iff_parse_eq_symbol :
    (∀ name, isIdentifier name ↔ parse name = .ok (.symbol name)) ∧
    (∀ name, (Expr.symbol name).text = name ∧
      (isIdentifier name ↔ parse (Expr.symbol name).text = .ok (.symbol name))) ∧
    (∀ symbol index, ¬ isIdentifier (componentLabel symbol index) ∧
      ∀ formula, parse formula ≠ .ok (.symbol (componentLabel symbol index))) ∧
    ∀ symbol symbol' index index',
      componentLabel symbol index = componentLabel symbol' index' ↔
        symbol = symbol' ∧ index = index' := by
  have hreads (name : String) : isIdentifier name ↔ parse name = .ok (.symbol name) :=
    ⟨Expr.parse_identifier, isIdentifier_of_parse_eq_symbol⟩
  refine ⟨hreads, fun name ↦ ⟨Expr.text_symbol name, ?_⟩, fun symbol index ↦ ?_, ?_⟩
  · rw [Expr.text_symbol]
    exact hreads name
  · have hlabel := not_isIdentifier_componentLabel symbol index
    exact ⟨hlabel, fun formula hread ↦ hlabel (isIdentifier_of_parse_eq_symbol hread)⟩
  · intro symbol symbol' index index'
    exact componentLabel_inj

/-- A symbol in parentheses is a formula for the symbol, and not for its own text. -/
example : parse "( x )" = .ok (.symbol "x") ∧ isIdentifier "( x )" = false := by cbv

end Tradeoff
