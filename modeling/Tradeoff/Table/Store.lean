import Tradeoff.Table

/-!
# Tables in memory

A table is kept in two parts that are written one after the other: the number of rows, which is
missing until a column brings it, and the columns. The type of a store does not say that its parts
agree, nor that an addition that is refused writes nothing. This is left to the order in which
`ColumnStore.insert` looks at the parts and writes them.

An addition is made to a store or to a table. Additions may be made one after another whatever
becomes of each of them (`Addition.each`).
-/

namespace Tradeoff

/-- The values of components with the symbols of their columns, the first of them for component
`index`. -/
def componentEntries (symbol : String) : (index : Nat) → List (Array Float) →
    List (String × Array Float)
  | _, [] => []
  | index, values :: components =>
    (componentLabel symbol index, values) :: componentEntries symbol (index + 1) components

/-! ### Additions -/

/-- What may be added to a table. -/
inductive Addition where
  /-- A column. -/
  | column (symbol : String) (values : Array Float)
  /-- The components of a vector variable, each as a column. -/
  | vector (symbol : String) (components : List (Array Float))

namespace Addition

/-- Makes additions one after another. The result is what is left after the last one, and the answer
to each: the error, if there was one. -/
def each {σ : Type} (add : σ → Addition → σ × Option TableError) (s : σ) :
    List Addition → σ × List (Option TableError)
  | [] => (s, [])
  | addition :: additions =>
    let first := add s addition
    let others := each add first.1 additions
    (others.1, first.2 :: others.2)

end Addition

/-- Adds to a table. -/
def Table.add (t : Table) : Addition → Table × Option TableError
  | .column symbol values =>
    match t.insert symbol values with
    | .error e => (t, some e)
    | .ok t => (t, none)
  | .vector symbol components => t.insertVector symbol components

/-! ### Stores -/

/-- The number of rows and the columns of a table. -/
structure ColumnStore where
  /-- The number of rows, once it is known. -/
  rows? : Option Nat
  /-- The columns in order. -/
  columns : List (String × Array Float)

namespace ColumnStore

/-- The store without columns. -/
def empty : ColumnStore := ⟨none, []⟩

/-- The number of rows; zero as long as it is not known. -/
def rows (s : ColumnStore) : Nat := s.rows?.getD 0

/-- Adds a column: after the checks, the number of rows is written and then the column. -/
def insert (symbol : String) (values : Array Float) : EStateM TableError ColumnStore Unit := do
  let s ← get
  if symbol ∈ s.columns.map Prod.fst then
    throw (.duplicateColumn symbol)
  if let some expected := s.rows? then
    if expected ≠ values.size then
      throw (.lengthMismatch symbol expected values.size)
  modify fun s ↦ { s with rows? := some values.size }
  modify fun s ↦ { s with columns := SymbolMap.put symbol values s.columns }

/-- Adds columns one after another up to the first that is refused. -/
def insertAll (columns : List (String × Array Float)) : EStateM TableError ColumnStore Unit :=
  columns.forM fun column ↦ insert column.1 column.2

/-- Adds to a store. An error leaves what was written before it. -/
def add (s : ColumnStore) (addition : Addition) : ColumnStore × Option TableError :=
  let action := match addition with
    | .column symbol values => insert symbol values
    | .vector symbol components => insertAll (componentEntries symbol 1 components)
  match action.run s with
  | .ok _ s => (s, none)
  | .error e s => (s, some e)

/-- The store with the given columns. -/
def ofColumns (columns : List (String × Array Float)) : Except TableError ColumnStore :=
  match (insertAll columns).run empty with
  | .ok _ s => .ok s
  | .error e _ => .error e

end ColumnStore

end Tradeoff
