import Tradeoff.Formula.Token
import Tradeoff.Problem.Draft

/-!
# Problems

A `Problem` is a draft in which nothing is wrong: it has an objective, its symbols are identifiers
and are claimed once, objectives without an expression have stored values, and every expression
mentions only what is in scope. `Draft.fault?` finds the first thing that is wrong, in this order.
-/

namespace Tradeoff

/-- What is wrong with a draft. -/
inductive ProblemError where
  /-- There is no objective. -/
  | noObjectives
  /-- A symbol that is no identifier. -/
  | invalidSymbol (symbol : String)
  /-- A symbol that is claimed twice. -/
  | duplicateSymbol (symbol : String)
  /-- An objective that has neither an expression nor stored values. -/
  | missingExpression (symbol : String)
  /-- A symbol that is not in scope where a field mentions it. -/
  | unknownSymbol (symbol field : String)
deriving DecidableEq, Repr

/-- The message of the error. -/
def ProblemError.message : ProblemError → String
  | noObjectives => "a problem needs at least one objective"
  | invalidSymbol symbol => "symbol `" ++ symbol ++ "` is not an identifier"
  | duplicateSymbol symbol => "symbol `" ++ symbol ++ "` is defined more than once"
  | missingExpression symbol =>
    "objective `" ++ symbol ++ "` has no expression and no discrete values"
  | unknownSymbol symbol field =>
    "field `" ++ field ++ "` references `" ++ symbol ++ "`, which is not defined before it"

/-- The first of the claimed symbols that is no identifier or was claimed before; those in `seen`
were. -/
def claimFault? (seen : List String) : List String → Option ProblemError
  | [] => none
  | symbol :: claims =>
    if !isIdentifier symbol then some (.invalidSymbol symbol)
    else if symbol ∈ seen then some (.duplicateSymbol symbol)
    else claimFault? (symbol :: seen) claims

/-- The first symbol in order that the expression of a field mentions out of scope. -/
def Field.referenceFault? (scope : List String) (field : Field) : Option ProblemError :=
  match field.expr? with
  | none => none
  | some e =>
    (e.symbols.find? (· ∉ scope)).map fun symbol ↦ .unknownSymbol symbol field.symbol

namespace Draft

/-- Whether there are stored values of the symbol. -/
def isStored (d : Draft) (symbol : String) : Bool :=
  match d.samples? with
  | none => false
  | some samples => (samples.values.find? symbol).isSome

/-- The first objective that has neither an expression nor stored values. -/
def expressionFault? (d : Draft) : Option ProblemError :=
  (d.objectives.find? fun f ↦ f.expr?.isNone && !d.isStored f.symbol).map fun f ↦
    .missingExpression f.symbol

/-- The first symbol mentioned out of scope, stage by stage and field by field. -/
def referenceFault? (d : Draft) : Option ProblemError :=
  Stage.all.findSome? fun s ↦ (d.stageFields s).findSome? (Field.referenceFault? (d.scope s))

/-- The first thing that is wrong with a draft. -/
def fault? (d : Draft) : Option ProblemError :=
  if d.objectives.isEmpty then some .noObjectives
  else (claimFault? [] d.claims).or (d.expressionFault?.or d.referenceFault?)

end Draft

/-- A problem: a draft with nothing wrong in it. -/
structure Problem where
  /-- The fields. -/
  draft : Draft
  /-- Nothing is wrong with them. -/
  sound : draft.fault? = none

/-- Equality compares numbers as numbers. -/
instance : BEq Problem := ⟨fun p q ↦ p.draft == q.draft⟩

/-- The problem with the fields of a draft, or what is wrong with the draft. -/
def Draft.build (d : Draft) : Except ProblemError Problem :=
  match h : d.fault? with
  | some e => .error e
  | none => .ok ⟨d, h⟩

namespace Problem

/-- The field of a symbol. -/
def findField? (p : Problem) (symbol : String) : Option Field :=
  p.draft.fields.find? fun field ↦ field.symbol == symbol

/-- The decision variable of a symbol. -/
def findVariable? (p : Problem) (symbol : String) : Option Variable :=
  p.draft.decisions.find? fun v ↦ v.symbol == symbol

/-- The objective of a symbol. -/
def findObjective? (p : Problem) (symbol : String) : Option Objective :=
  p.draft.objectives.find? fun f ↦ f.symbol == symbol

/-- Whether a field has claimed the symbol. -/
def contains (p : Problem) (symbol : String) : Bool := p.draft.claims.contains symbol

end Problem

/-! ### When nothing is wrong -/

/-- Claims have no fault exactly if they are different identifiers, and none of them was seen
before. -/
theorem claimFault?_eq_none_iff {seen claims : List String} :
    claimFault? seen claims = none ↔
      (∀ symbol ∈ claims, isIdentifier symbol) ∧ claims.Nodup ∧
        ∀ symbol ∈ claims, symbol ∉ seen := by
  induction claims generalizing seen with
  | nil => simp [claimFault?]
  | cons symbol claims ih =>
    unfold claimFault?
    by_cases hid : isIdentifier symbol
    · by_cases hseen : symbol ∈ seen
      · simp [hid, hseen]
      · simp only [hid, hseen, Bool.not_true, Bool.false_eq_true, if_false, ih, List.mem_cons,
          List.nodup_cons, forall_eq_or_imp, true_and, not_or]
        constructor
        · rintro ⟨hids, hnodup, hfresh⟩
          exact ⟨hids, ⟨fun hmem ↦ (hfresh symbol hmem).1 rfl, hnodup⟩, id,
            fun s hs ↦ (hfresh s hs).2⟩
        · rintro ⟨hids, ⟨hnotMem, hnodup⟩, _, hfresh⟩
          exact ⟨hids, hnodup, fun s hs ↦ ⟨fun h ↦ hnotMem (h ▸ hs), hfresh s hs⟩⟩
    · simp [hid]

/-- The references of a field have no fault exactly if what its expression mentions is in scope. -/
theorem Field.referenceFault?_eq_none_iff {scope : List String} {field : Field} :
    field.referenceFault? scope = none ↔
      ∀ e, field.expr? = some e → ∀ symbol ∈ e.mentions, symbol ∈ scope := by
  unfold referenceFault?
  split
  · next h => simp [h]
  · next e h =>
    simp only [h, Option.map_eq_none_iff, List.find?_eq_none, Expr.symbols, mem_sortSymbols,
      decide_eq_true_eq, Decidable.not_not, Option.some.injEq]
    exact ⟨fun hall e' he ↦ he ▸ hall, fun hall ↦ hall e rfl⟩

namespace Draft

/-- Expressions are missing without fault exactly where values are stored. -/
theorem expressionFault?_eq_none_iff {d : Draft} :
    d.expressionFault? = none ↔ ∀ f ∈ d.objectives, f.expr? = none → d.isStored f.symbol := by
  simp only [expressionFault?, Option.map_eq_none_iff, List.find?_eq_none, Bool.and_eq_true,
    Option.isNone_iff_eq_none, Bool.not_eq_true', not_and, Bool.not_eq_false]

/-- The references of a draft have no fault exactly if every expression mentions only what is in the
scope of its stage. -/
theorem referenceFault?_eq_none_iff {d : Draft} :
    d.referenceFault? = none ↔
      ∀ stage, ∀ field ∈ d.stageFields stage, ∀ e, field.expr? = some e →
        ∀ symbol ∈ e.mentions, symbol ∈ d.scope stage := by
  simp only [referenceFault?, List.findSome?_eq_none_iff, Field.referenceFault?_eq_none_iff]
  exact ⟨fun h stage ↦ h stage stage.mem_all, fun h stage _ ↦ h stage⟩

end Draft

/-- A problem is the draft it was built from, in which nothing is wrong. -/
theorem Draft.build_eq_ok_iff {d : Draft} {p : Problem} :
    d.build = .ok p ↔ d.fault? = none ∧ p.draft = d := by
  unfold Draft.build
  split
  · next e h => simp [h]
  · next h =>
    refine ⟨fun hp ↦ ?_, fun ⟨_, hp⟩ ↦ ?_⟩
    · cases hp
      exact ⟨h, rfl⟩
    · obtain ⟨_, _⟩ := p
      cases hp
      rfl

/-- Building ends in the first fault. -/
theorem Draft.build_eq_error_iff {d : Draft} {e : ProblemError} :
    d.build = .error e ↔ d.fault? = some e := by
  unfold Draft.build
  split
  · next e' h => simp [h]
  · next h => simp [h]

end Tradeoff
