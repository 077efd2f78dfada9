import Tradeoff.Evaluation.Arithmetic
import Tradeoff.Matching.Hypotenuse
import Tradeoff.Problem.Basic

/-!
# Nearest stored samples

A problem with stored samples can be answered without any expression: a query is answered by the
stored sample nearest to it. The distance uses the scalar decision variables that are both queried
and stored, each difference divided by the scale of its variable. Of several nearest samples the
first one counts.

Distances are measured in halves, since the difference of two halved doubles never overflows. They
are put together from the differences by a function `hypot` for the length of a hypotenuse.
-/

namespace Tradeoff

/-- How differences of a variable are scaled. -/
inductive Metric where
  /-- Not at all. -/
  | euclidean
  /-- By the range of the variable. -/
  | normalized
deriving DecidableEq, Repr

/-- Why queries could not be answered. -/
inductive MatchError where
  /-- There are no stored samples. -/
  | missingSamples
  /-- The stored samples are none. -/
  | emptySamples
  /-- A query of a vector variable. -/
  | vectorVariable (symbol : String)
  /-- No queried variable is stored. -/
  | nothingShared
  /-- A queried value that is not finite. -/
  | invalidQuery (symbol : String) (row : Nat)
  /-- Stored columns that do not fit together with the oriented values. -/
  | table (error : TableError)
deriving DecidableEq, Repr

/-- The message of the error. -/
def MatchError.message : MatchError → String
  | missingSamples => "problem has no discrete representation"
  | emptySamples => "discrete representation holds no samples"
  | vectorVariable symbol =>
    "vector variable `" ++ symbol ++ "` cannot be matched against stored samples"
  | nothingShared => "no queried variable is stored in the discrete representation"
  | invalidQuery symbol row =>
    "query value of `" ++ symbol ++ "` at row " ++ toString row ++ " is not a number"
  | table error => "invalid query table: " ++ error.message

/-- The stored samples nearest to some queries. -/
structure Matches where
  /-- The stored values of each nearest sample and, of objectives, the oriented values. -/
  table : Table
  /-- The index of the nearest sample for each query. -/
  indices : List Nat
  /-- The distance to it for each query. -/
  distances : List Float

/-- A variable that is both queried and stored. -/
structure Coordinate where
  /-- The symbol. -/
  symbol : String
  /-- The queried values. -/
  query : Array Float
  /-- The stored values. -/
  stored : Array Float
  /-- What differences are divided by. -/
  scale : Float

/-! ### Distances -/

/-- A width that can be a scale. -/
def usableWidth? (width : Float) : Option Float :=
  if 0 < width && width.isFinite then some width else none

/-- The width of the interval that holds all the values. Values that are not numbers are passed
over. -/
def spread (values : Array Float) : Float :=
  values.foldl greater (-1 / 0) - values.foldl lesser (1 / 0)

/-- The scale of a variable: the range between its bounds, else the range of its stored values, else
one. -/
def Metric.scale (metric : Metric) (v? : Option Variable) (stored : Array Float) : Float :=
  match metric with
  | .euclidean => 1
  | .normalized =>
    match v?.bind fun v ↦ v.boundRange?.bind usableWidth? with
    | some width => width
    | none => (usableWidth? (spread stored)).getD 1

namespace Coordinate

/-- Half the scaled difference between a query and a sample. -/
def halfDelta (c : Coordinate) (row sample : Nat) : Float :=
  (0.5 * c.query[row]?.getD notANumber - 0.5 * c.stored[sample]?.getD notANumber) / c.scale

/-- Half the distance between a query and a sample. -/
def halfDistance (hypot : Float → Float → Float) (coordinates : List Coordinate)
    (row sample : Nat) : Float :=
  coordinates.foldl (fun length c ↦ hypot length (c.halfDelta row sample)) 0

end Coordinate

/-- The index of the first least value and that value, from index `index` on; `best` is what was
found before. -/
def leastFrom (best : Nat × Float) (index : Nat) : List Float → Nat × Float
  | [] => best
  | value :: values =>
    leastFrom (if value < best.2 then (index, value) else best) (index + 1) values

/-- The index of the first least value below infinity and that value; zero and infinity if there is
none. -/
def least (values : List Float) : Nat × Float := leastFrom (0, 1 / 0) 0 values

/-- The nearest of the first `count` samples and the distance to it. -/
def nearest (hypot : Float → Float → Float) (coordinates : List Coordinate) (count row : Nat) :
    Nat × Float :=
  let (index, half) :=
    least ((List.range count).map (Coordinate.halfDistance hypot coordinates row))
  (index, 2 * half)

/-! ### Queries -/

/-- The variable that a column belongs to: the part of its symbol before a bracket. -/
def baseSymbol (symbol : String) : String := String.ofList (symbol.toList.takeWhile (· ≠ '['))

namespace Problem

/-- The first queried vector variable. -/
def vectorQuery? (p : Problem) (queries : Table) : Option String :=
  (queries.symbols.map baseSymbol).find? fun symbol ↦
    match p.findVariable? symbol with
    | some v => v.shape.length?.isSome
    | none => false

/-- The variables that are both queried and stored, in the order of the queries. -/
def coordinates (p : Problem) (samples : StoredSamples) (queries : Table) (metric : Metric) :
    List Coordinate :=
  queries.columns.entries.filterMap fun query ↦
    (samples.decisions.find? query.1).map fun stored ↦
      ⟨query.1, query.2, stored, metric.scale (p.findVariable? query.1) stored⟩

/-- The first queried value that is not finite. -/
def invalidQuery? (coordinates : List Coordinate) : Option MatchError :=
  coordinates.findSome? fun c ↦
    (c.query.findIdx? fun value ↦ !value.isFinite).map (.invalidQuery c.symbol)

/-- Adds the oriented values of objectives whose values are in the table. -/
def orientAll : Table → List Objective → Except TableError Table
  | t, [] => .ok t
  | t, f :: objectives =>
    match t.find? f.symbol with
    | none => orientAll t objectives
    | some values =>
      match t.insert (minAlias f.symbol) (values.map f.orient) with
      | .error e => .error e
      | .ok t => orientAll t objectives

/-- The stored values at the given indices, with the oriented values of objectives. -/
def lookUp (p : Problem) (samples : StoredSamples) (indices : List Nat) :
    Except TableError Table :=
  let columns := samples.values.entries.map fun stored ↦
    (stored.1, (indices.map fun index ↦ stored.2[index]?.getD notANumber).toArray)
  match Table.ofColumns columns with
  | .error e => .error e
  | .ok t => orientAll t p.draft.objectives

/-- Answers each query with the nearest stored sample. -/
def nearestSamples (p : Problem) (queries : Table) (metric : Metric)
    (hypot : Float → Float → Float := hypotenuse) : Except MatchError Matches :=
  match p.draft.samples? with
  | none => .error .missingSamples
  | some samples =>
    match p.vectorQuery? queries with
    | some symbol => .error (.vectorVariable symbol)
    | none =>
      if samples.count = 0 then .error .emptySamples
      else
        let coordinates := p.coordinates samples queries metric
        if coordinates.isEmpty then .error .nothingShared
        else
          match invalidQuery? coordinates with
          | some e => .error e
          | none =>
            let found := (List.range queries.rows).map (nearest hypot coordinates samples.count)
            match p.lookUp samples (found.map Prod.fst) with
            | .error e => .error (.table e)
            | .ok table => .ok ⟨table, found.map Prod.fst, found.map Prod.snd⟩

end Problem

end Tradeoff
