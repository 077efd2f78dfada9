import Tradeoff.Problem.Field
import Tradeoff.Problem.Samples

/-!
# Drafts and stages

A `Draft` collects the fields of a problem before anything is checked. Its fields fall into five
stages, which an evaluation goes through in order; decision variables are given from the start.
Fields of one stage never see each other: what an expression may mention is the decision variables
and the symbols claimed in earlier stages (`Draft.scope`).
-/

namespace Tradeoff

/-- The fields of a problem, not checked yet. -/
structure Draft where
  /-- The name. -/
  name : String
  /-- What the problem is about. -/
  about : String
  /-- The constants. -/
  constants : List Constant
  /-- The decision variables. -/
  decisions : List Variable
  /-- The extra functions. -/
  extraFunctions : List DerivedFunction
  /-- The objectives. -/
  objectives : List Objective
  /-- The constraints. -/
  constraints : List Constraint
  /-- The scalarizations. -/
  scalarizations : List DerivedFunction
  /-- Stored samples, if there are any. -/
  samples? : Option StoredSamples
deriving BEq

/-- A step of an evaluation. -/
inductive Stage where
  /-- Constants get their values. -/
  | constants
  /-- Extra functions are evaluated. -/
  | extraFunctions
  /-- Objectives are evaluated and oriented. -/
  | objectives
  /-- Constraints are evaluated. -/
  | constraints
  /-- Scalarizations are evaluated. -/
  | scalarizations
deriving DecidableEq, Repr

namespace Stage

/-- The stages before a stage, in order. -/
def before : Stage → List Stage
  | constants => []
  | extraFunctions => [constants]
  | objectives => [constants, extraFunctions]
  | constraints => [constants, extraFunctions, objectives]
  | scalarizations => [constants, extraFunctions, objectives, constraints]

/-- The stages up to a stage, in order. -/
def upTo (s : Stage) : List Stage := s.before ++ [s]

/-- All stages in order. -/
def all : List Stage := scalarizations.upTo

/-- The name of a stage. -/
def name : Stage → String
  | constants => "constants"
  | extraFunctions => "extra functions"
  | objectives => "objectives"
  | constraints => "constraints"
  | scalarizations => "scalarizations"

theorem mem_all (s : Stage) : s ∈ all := by
  cases s <;> decide

end Stage

namespace Draft

/-- The draft without fields. -/
def empty (name : String) : Draft := ⟨name, "", [], [], [], [], [], [], none⟩

instance : Inhabited Draft := ⟨empty ""⟩

/-- All fields in order. -/
def fields (d : Draft) : List Field :=
  d.constants.map .constant ++ d.decisions.map .decision ++
    d.extraFunctions.map .extraFunction ++ d.objectives.map .objective ++
    d.constraints.map .constraint ++ d.scalarizations.map .scalarization

/-- The fields of a stage in order. -/
def stageFields (d : Draft) : Stage → List Field
  | .constants => d.constants.map .constant
  | .extraFunctions => d.extraFunctions.map .extraFunction
  | .objectives => d.objectives.map .objective
  | .constraints => d.constraints.map .constraint
  | .scalarizations => d.scalarizations.map .scalarization

/-- All claimed symbols: of every field in order its own and then the alias, if it has one. -/
def claims (d : Draft) : List String := d.fields.flatMap Field.claims

/-- The symbols that an expression may mention in a stage. -/
def scope (d : Draft) (s : Stage) : List String :=
  d.decisions.map (·.symbol) ++
    s.before.flatMap fun earlier ↦ (d.stageFields earlier).flatMap Field.claims

end Draft

end Tradeoff
