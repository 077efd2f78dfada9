import Tradeoff.Table

/-!
# Stored samples

A problem may come with samples: finitely many decision vectors and what is known of each. They are
stored by columns, the decision vectors and the known values apart, and every column has an entry
for every sample.
-/

namespace Tradeoff

/-- A column that has not as many values as the first one. -/
structure UnevenSamples where
  /-- The symbol of the column. -/
  symbol : String
  /-- The length of the first column. -/
  expected : Nat
  /-- The length of this column. -/
  found : Nat
deriving DecidableEq, Repr

/-- The message of the error. -/
def UnevenSamples.message (e : UnevenSamples) : String :=
  "`" ++ e.symbol ++ "` has " ++ toString e.found ++ " values, expected " ++ toString e.expected

/-- Stored samples. -/
structure StoredSamples where
  /-- The values of scalar decision variables. -/
  decisions : SortedMap (Array Float)
  /-- What is known: the values of objectives and, if need be, of other fields. -/
  values : SortedMap (Array Float)
  /-- Whether no sample is known to be dominated by another. -/
  nonDominated : Bool
  /-- Every column is as long as the first. -/
  uniform : ∀ entry ∈ decisions.entries ++ values.entries,
    entry.2.size = rowCount (decisions.entries ++ values.entries)

/-- Equality compares numbers as numbers. -/
instance : BEq StoredSamples where
  beq a b := a.decisions.entries == b.decisions.entries && a.values.entries == b.values.entries &&
    a.nonDominated == b.nonDominated

namespace StoredSamples

/-- All columns, decision vectors first. -/
def columns (s : StoredSamples) : List (String × Array Float) :=
  s.decisions.entries ++ s.values.entries

/-- The number of samples. -/
def count (s : StoredSamples) : Nat := rowCount s.columns

/-- Samples from their columns, or the first column of another length than the first of all. -/
def ofColumns (decisions values : SortedMap (Array Float)) (nonDominated : Bool) :
    Except UnevenSamples StoredSamples :=
  match h : (decisions.entries ++ values.entries).find? fun entry ↦
      entry.2.size != rowCount (decisions.entries ++ values.entries) with
  | some entry =>
    .error ⟨entry.1, rowCount (decisions.entries ++ values.entries), entry.2.size⟩
  | none =>
    .ok ⟨decisions, values, nonDominated, fun entry hmem ↦ by
      simpa using List.find?_eq_none.mp h entry hmem⟩

end StoredSamples

end Tradeoff
