import Tradeoff.Problem.Scalarization
import Tradeoff.Proofs.Problem.FirstFault

/-!
# Adding scalarizations

When a scalarization can be added to a problem, and what is wrong otherwise, is told without
building the extended draft (`Problem.Accepts`, `Problem.Refuses`): the symbol has to be new, the
expression has to be made, the symbol has to be an identifier, and what the expression mentions has
to be in scope, in this order. Nothing else can go wrong, because the fields that were there stay as
sound as they were (`Problem.fault?_addScalarization`).

Problems to which scalarizations have been added one after another (`Problem.Reaches`) differ from
the first one only by them.
-/

namespace Tradeoff

/-! ### Drafts with one more scalarization -/

namespace Draft

/-- The symbol is that of a field or the alias of an objective. -/
def Taken (d : Draft) (symbol : String) : Prop :=
  (∃ field ∈ d.fields, field.symbol = symbol) ∨ ∃ f ∈ d.objectives, minAlias f.symbol = symbol

variable (d : Draft) (f : DerivedFunction)

theorem mem_claims_iff_taken {symbol : String} : symbol ∈ d.claims ↔ d.Taken symbol := by
  rw [claims_perm.mem_iff, List.mem_append, List.mem_map, List.mem_map]
  rfl

theorem claims_addScalarization : (d.addScalarization f).claims = d.claims ++ [f.symbol] := by
  simp [claims, fields, addScalarization, Field.claims, Field.symbol]

/-- Earlier stages stay as they are. -/
theorem stageFields_addScalarization {s : Stage} (hs : s ≠ .scalarizations) :
    (d.addScalarization f).stageFields s = d.stageFields s := by
  cases s with
  | scalarizations => exact absurd rfl hs
  | _ => rfl

/-- The last stage has one more field at its end. -/
theorem stageFields_addScalarization_last :
    (d.addScalarization f).stageFields .scalarizations =
      d.stageFields .scalarizations ++ [.scalarization f] := by
  simp [stageFields, addScalarization]

/-- Scalarizations are the last stage, so that one more is in scope nowhere. -/
theorem scope_addScalarization (s : Stage) : (d.addScalarization f).scope s = d.scope s := by
  cases s <;> rfl

/-- The references that were there stay, and those of the new expression come last. -/
theorem referenceFault?_addScalarization :
    (d.addScalarization f).referenceFault? =
      d.referenceFault?.or ((Field.scalarization f).referenceFault? (d.scope .scalarizations)) := by
  have hstages : Stage.all = Stage.scalarizations.before ++ [.scalarizations] := rfl
  have hearlier : (Stage.scalarizations.before.findSome? fun s ↦
      ((d.addScalarization f).stageFields s).findSome?
        (Field.referenceFault? ((d.addScalarization f).scope s))) =
      Stage.scalarizations.before.findSome? fun s ↦
        (d.stageFields s).findSome? (Field.referenceFault? (d.scope s)) := rfl
  rw [referenceFault?, referenceFault?, hstages, List.findSome?_append, List.findSome?_append,
    hearlier, Option.or_assoc, List.findSome?_singleton, List.findSome?_singleton,
    scope_addScalarization, stageFields_addScalarization_last, List.findSome?_append,
    List.findSome?_singleton]

end Draft

namespace Problem

variable {p q : Problem} {name symbol : String} {make : Scalarizer}

theorem contains_iff_taken : p.contains symbol ↔ p.draft.Taken symbol := by
  rw [contains, List.contains_iff_mem, Draft.mem_claims_iff_taken]

/-- With a new symbol, all that can be wrong with one more scalarization is that the symbol is no
identifier or that the expression mentions something out of scope. -/
theorem fault?_addScalarization (p : Problem) {f : DerivedFunction}
    (hnew : ¬ p.draft.Taken f.symbol) :
    (p.draft.addScalarization f).fault? =
      if isIdentifier f.symbol then
        (Field.scalarization f).referenceFault? (p.draft.scope .scalarizations)
      else some (.invalidSymbol f.symbol) := by
  obtain ⟨hclaims, hexpressions, hreferences⟩ := p.faults_eq_none
  have hobjectives : (p.draft.addScalarization f).objectives.isEmpty = false := by
    rw [← Bool.not_eq_true, List.isEmpty_iff]
    exact p.isSound.objectives
  have hexpressions' : (p.draft.addScalarization f).expressionFault? = none := hexpressions
  have hfresh : f.symbol ∉ p.draft.claims.reverse ++ [] := by
    simpa [Draft.mem_claims_iff_taken] using hnew
  rw [Draft.fault?, hobjectives, Draft.claims_addScalarization, Draft.claimFault?_append, hclaims,
    hexpressions', Draft.referenceFault?_addScalarization, hreferences]
  simp only [claimFault?, hfresh, if_false, Option.none_or, Bool.false_eq_true]
  rcases isIdentifier f.symbol <;> rfl

/-! ### Accepted and refused scalarizations -/

/-- A scalarization can be added: its symbol is a new identifier, and an expression is made for it
that mentions only what is in scope. -/
structure Accepts (p : Problem) (symbol : String) (make : Scalarizer) (e : Expr) : Prop where
  /-- No field has claimed the symbol. -/
  new : ¬ p.draft.Taken symbol
  /-- The expression is made. -/
  made : make p = .ok e
  /-- The symbol is an identifier. -/
  identifier : isIdentifier symbol
  /-- The expression mentions only what is in scope. -/
  inScope : ∀ mention ∈ e.mentions, mention ∈ p.draft.scope .scalarizations

/-- A scalarization cannot be added, for the reason that the error tells. A reason counts only if
none of those before it does. -/
inductive Refuses (p : Problem) (symbol : String) (make : Scalarizer) : ScalarizationError → Prop
    where
  /-- The symbol has been claimed. -/
  | taken : p.draft.Taken symbol → Refuses p symbol make (.problem (.duplicateSymbol symbol))
  /-- The expression cannot be made. -/
  | notMade {error : ScalarizationError} : ¬ p.draft.Taken symbol → make p = .error error →
      Refuses p symbol make error
  /-- The symbol is no identifier. -/
  | invalid {e : Expr} : ¬ p.draft.Taken symbol → make p = .ok e → ¬ isIdentifier symbol →
      Refuses p symbol make (.problem (.invalidSymbol symbol))
  /-- The expression mentions something that is out of scope. The error tells the smallest. -/
  | outOfScope {e : Expr} {mention : String} : ¬ p.draft.Taken symbol → make p = .ok e →
      isIdentifier symbol → mention ∈ e.mentions → mention ∉ p.draft.scope .scalarizations →
      (∀ other ∈ e.mentions, other < mention → other ∈ p.draft.scope .scalarizations) →
      Refuses p symbol make (.problem (.unknownSymbol mention symbol))

/-- A scalarization is added if it can be, and otherwise the error tells why not. -/
theorem addScalarization_cases (p : Problem) (name symbol : String) (make : Scalarizer) :
    (∃ e q, p.Accepts symbol make e ∧ p.addScalarization name symbol make = .ok q ∧
      q.draft = p.draft.addScalarization ⟨name, symbol, e⟩) ∨
    ∃ error, p.Refuses symbol make error ∧ p.addScalarization name symbol make = .error error := by
  unfold addScalarization
  split
  · next htaken => exact .inr ⟨_, .taken (contains_iff_taken.mp htaken), rfl⟩
  · next hnew =>
    rw [contains_iff_taken] at hnew
    split
    · next error hmade => exact .inr ⟨error, .notMade hnew hmade, rfl⟩
    · next e hmade =>
      have hfault := p.fault?_addScalarization (f := ⟨name, symbol, e⟩) hnew
      split
      · next error hbuild =>
        rw [Draft.build_eq_error_iff, hfault] at hbuild
        split at hbuild
        · next hidentifier =>
          obtain ⟨_, mention, he, rfl, hmention, hout, hsmallest⟩ :=
            Draft.of_referenceFault?_field hbuild
          cases he
          exact .inr ⟨_, .outOfScope hnew hmade hidentifier hmention hout hsmallest, rfl⟩
        · next hinvalid =>
          cases hbuild
          exact .inr ⟨_, .invalid hnew hmade hinvalid, rfl⟩
      · next q hbuild =>
        obtain ⟨hnone, hq⟩ := Draft.build_eq_ok_iff.mp hbuild
        rw [hfault] at hnone
        split at hnone
        · next hidentifier =>
          have hscope := Field.referenceFault?_eq_none_iff.mp hnone e rfl
          exact .inl ⟨e, q, ⟨hnew, hmade, hidentifier, hscope⟩, rfl, hq⟩
        · cases hnone

/-- What is accepted is not refused. -/
theorem Accepts.not_refuses {e : Expr} (h : p.Accepts symbol make e) {error : ScalarizationError} :
    ¬ p.Refuses symbol make error := by
  intro hrefuses
  cases hrefuses with
  | taken htaken => exact h.new htaken
  | notMade _ hmade => cases h.made.symm.trans hmade
  | invalid _ _ hinvalid => exact hinvalid h.identifier
  | outOfScope _ hmade _ hmention hout =>
    cases h.made.symm.trans hmade
    exact hout (h.inScope _ hmention)

/-- There is one reason at a time to refuse a scalarization. -/
theorem Refuses.unique {error error' : ScalarizationError} (h : p.Refuses symbol make error)
    (h' : p.Refuses symbol make error') : error = error' := by
  cases h with
  | taken htaken =>
    cases h' with
    | taken => rfl
    | notMade hnew | invalid hnew | outOfScope hnew => exact absurd htaken hnew
  | notMade hnew hmade =>
    cases h' with
    | taken htaken => exact absurd htaken hnew
    | notMade _ hmade' => exact Except.error.inj (hmade.symm.trans hmade')
    | invalid _ hmade' | outOfScope _ hmade' => cases hmade.symm.trans hmade'
  | invalid hnew hmade hinvalid =>
    cases h' with
    | taken htaken => exact absurd htaken hnew
    | notMade _ hmade' => cases hmade.symm.trans hmade'
    | invalid => rfl
    | outOfScope _ _ hidentifier => exact absurd hidentifier hinvalid
  | @outOfScope _ mention hnew hmade hidentifier hmention hout hsmallest =>
    cases h' with
    | taken htaken => exact absurd htaken hnew
    | notMade _ hmade' => cases hmade.symm.trans hmade'
    | invalid _ _ hinvalid => exact absurd hidentifier hinvalid
    | @outOfScope _ mention' _ hmade' _ hmention' hout' hsmallest' =>
      cases hmade.symm.trans hmade'
      rcases Check.lt_or_eq_or_lt mention mention' with hlt | rfl | hlt
      · exact absurd (hsmallest' _ hmention hlt) hout
      · rfl
      · exact absurd (hsmallest _ hmention' hlt) hout'

/-- A scalarization is added exactly if it is accepted, and then nothing else changes. -/
theorem addScalarization_eq_ok_iff : p.addScalarization name symbol make = .ok q ↔
    ∃ e, p.Accepts symbol make e ∧ q.draft = p.draft.addScalarization ⟨name, symbol, e⟩ := by
  rcases p.addScalarization_cases name symbol make with
    ⟨e, added, haccepts, hadded, hdraft⟩ | ⟨error, hrefuses, herror⟩
  · rw [hadded, Except.ok.injEq]
    constructor
    · rintro rfl
      exact ⟨e, haccepts, hdraft⟩
    · rintro ⟨e', haccepts', hq⟩
      cases haccepts.made.symm.trans haccepts'.made
      obtain ⟨_, _⟩ := q
      obtain ⟨_, _⟩ := added
      cases hdraft
      cases hq
      rfl
  · rw [herror]
    constructor
    · intro h
      cases h
    · rintro ⟨e, haccepts, -⟩
      exact absurd hrefuses haccepts.not_refuses

/-- An error is exactly a reason for refusing it. -/
theorem addScalarization_eq_error_iff {error : ScalarizationError} :
    p.addScalarization name symbol make = .error error ↔ p.Refuses symbol make error := by
  rcases p.addScalarization_cases name symbol make with
    ⟨e, added, haccepts, hadded, -⟩ | ⟨error', hrefuses, herror⟩
  · rw [hadded]
    constructor
    · intro h
      cases h
    · exact fun hrefuses ↦ absurd hrefuses haccepts.not_refuses
  · rw [herror, Except.error.injEq]
    constructor
    · rintro rfl
      exact hrefuses
    · exact hrefuses.unique

/-! ### One scalarization after another -/

/-- From the first problem one comes to the second by adding the scalarizations in order. -/
inductive Reaches (p : Problem) : List DerivedFunction → Problem → Prop where
  /-- Nothing is added. -/
  | start : Reaches p [] p
  /-- One more is added at the end. -/
  | add {added : List DerivedFunction} {q r : Problem} {name symbol : String} {make : Scalarizer}
      {e : Expr} : Reaches p added q → make q = .ok e →
      q.addScalarization name symbol make = .ok r → Reaches p (added ++ [⟨name, symbol, e⟩]) r

/-- Nothing changes but the scalarizations, which get the new ones at the end. -/
theorem Reaches.draft_eq {added : List DerivedFunction} (h : p.Reaches added q) :
    q.draft = { p.draft with scalarizations := p.draft.scalarizations ++ added } := by
  induction h with
  | start => rw [List.append_nil]
  | add _ hmade hadded ih =>
    obtain ⟨e, haccepts, hdraft⟩ := addScalarization_eq_ok_iff.mp hadded
    cases hmade.symm.trans haccepts.made
    rw [hdraft, Draft.addScalarization, ih, List.append_assoc]

end Problem

end Tradeoff
