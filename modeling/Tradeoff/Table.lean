import Tradeoff.SymbolMap

/-!
# Tables

A table has named columns of equal length, in the order in which they were added. It is the input of
an evaluation (a column per variable, a row per sample) and its output (every computed column after
the inputs).

Adding a column either extends the table at its end or leaves it as it was; no column is ever
changed or removed. The first column decides the number of rows.
-/

namespace Tradeoff

/-- Why a column could not be added. -/
inductive TableError where
  /-- The table has a column of that symbol. -/
  | duplicateColumn (symbol : String)
  /-- The column has another length than those of the table. -/
  | lengthMismatch (symbol : String) (expected found : Nat)
deriving DecidableEq, Repr

/-- The message of the error. -/
def TableError.message : TableError → String
  | duplicateColumn symbol => "column `" ++ symbol ++ "` is already present"
  | lengthMismatch symbol expected found =>
    "column `" ++ symbol ++ "` has " ++ toString found ++ " values, expected " ++ toString expected

/-- The symbol of the column that holds a component of a vector variable, counted from one. -/
def componentLabel (symbol : String) (index : Nat) : String :=
  symbol ++ "[" ++ toString index ++ "]"

/-- The length of the first column; zero without columns. -/
def rowCount : List (String × Array Float) → Nat
  | [] => 0
  | entry :: _ => entry.2.size

/-- Named columns of equal length. -/
structure Table where
  /-- The columns in order. -/
  columns : SymbolMap (Array Float)
  /-- Every column is as long as the first. -/
  uniform : ∀ entry ∈ columns.entries, entry.2.size = rowCount columns.entries

namespace Table

/-- The table without columns. -/
def empty : Table := ⟨.empty, fun _ h ↦ absurd h List.not_mem_nil⟩

instance : Inhabited Table := ⟨empty⟩

/-- The number of rows. -/
def rows (t : Table) : Nat := rowCount t.columns.entries

/-- The symbols of the columns in order. -/
def symbols (t : Table) : List String := t.columns.keys

/-- The column of a symbol. -/
def find? (t : Table) (symbol : String) : Option (Array Float) := t.columns.find? symbol

/-- Whether the table has a column of the symbol. -/
def contains (t : Table) (symbol : String) : Bool := t.symbols.contains symbol

/-- A column of the right length keeps the number of rows, or decides it if it is the first one. -/
theorem rowCount_append {entries : List (String × Array Float)} {entry : String × Array Float}
    (h : entries = [] ∨ entry.2.size = rowCount entries) :
    entry.2.size = rowCount (entries ++ [entry]) := by
  cases entries with
  | nil => rfl
  | cons first rest => exact h.resolve_left (List.cons_ne_nil _ _)

/-- Once there is a column, others do not change the number of rows. -/
theorem rowCount_append_of_mem {entries : List (String × Array Float)}
    {entry new : String × Array Float} (h : entry ∈ entries) :
    rowCount (entries ++ [new]) = rowCount entries := by
  cases entries with
  | nil => exact absurd h List.not_mem_nil
  | cons first rest => rfl

/-- Adds a column at the end. That the symbol is new is checked before the length. -/
def insert (t : Table) (symbol : String) (values : Array Float) : Except TableError Table :=
  if hnew : symbol ∈ t.columns.keys then .error (.duplicateColumn symbol)
  else if hfit : t.columns.entries = [] ∨ values.size = t.rows then
    .ok ⟨t.columns.push symbol values hnew, by
      intro entry hmem
      rcases List.mem_append.mp hmem with hmem | hmem
      · exact (t.uniform entry hmem).trans (rowCount_append_of_mem hmem).symm
      · rw [List.mem_singleton.mp hmem]
        exact rowCount_append hfit⟩
  else .error (.lengthMismatch symbol t.rows values.size)

theorem ext_entries {t t' : Table} (h : t.columns.entries = t'.columns.entries) : t = t' := by
  obtain ⟨⟨entries, _⟩, _⟩ := t
  obtain ⟨⟨entries', _⟩, _⟩ := t'
  cases h
  rfl

/-- A column can be added exactly if its symbol is new and it is as long as the columns there are.
It comes last, and all else stays. -/
theorem insert_eq_ok_iff {t t' : Table} {symbol : String} {values : Array Float} :
    t.insert symbol values = .ok t' ↔
      symbol ∉ t.symbols ∧ (t.columns.entries = [] ∨ values.size = t.rows) ∧
        t'.columns.entries = t.columns.entries ++ [(symbol, values)] := by
  unfold insert
  split
  · next hmem => simp [symbols, hmem]
  · next hnew =>
    split
    · next hfit =>
      refine ⟨fun h ↦ ?_, fun ⟨_, _, h⟩ ↦ congrArg Except.ok (ext_entries h.symm)⟩
      cases h
      exact ⟨hnew, hfit, rfl⟩
    · next hfit => simp [hfit]

theorem symbols_of_insert {t t' : Table} {symbol : String} {values : Array Float}
    (h : t.insert symbol values = .ok t') : t'.symbols = t.symbols ++ [symbol] := by
  obtain ⟨_, _, hentries⟩ := insert_eq_ok_iff.mp h
  simp [symbols, SymbolMap.keys, hentries]

theorem find?_of_insert {t t' : Table} {symbol : String} {values : Array Float}
    (h : t.insert symbol values = .ok t') (s : String) :
    t'.find? s = if s = symbol then some values else t.find? s := by
  obtain ⟨hnew, _, hentries⟩ := insert_eq_ok_iff.mp h
  calc
    t'.find? s = (t.columns.push symbol values hnew).find? s := by
      simp [find?, SymbolMap.find?, SymbolMap.push, hentries]
    _ = if s = symbol then some values else t.find? s :=
      SymbolMap.find?_push t.columns symbol s values hnew

/-- Adds columns one after another. -/
def insertAll (t : Table) (columns : List (String × Array Float)) : Except TableError Table :=
  columns.foldlM (fun t column ↦ t.insert column.1 column.2) t

/-- The table with the given columns. -/
def ofColumns (columns : List (String × Array Float)) : Except TableError Table :=
  empty.insertAll columns

/-- Adds columns for components of a vector variable, the first of them for component `index`. The
result is the table with all components before the first that could not be added, and its error. -/
def insertComponents (t : Table) (symbol : String) (index : Nat) :
    List (Array Float) → Table × Option TableError
  | [] => (t, none)
  | values :: components =>
    match t.insert (componentLabel symbol index) values with
    | .error e => (t, some e)
    | .ok t => insertComponents t symbol (index + 1) components

/-- Adds a column for each component of a vector variable. -/
def insertVector (t : Table) (symbol : String) (components : List (Array Float)) :
    Table × Option TableError :=
  t.insertComponents symbol 1 components

/-- The columns of `count` components of a vector variable from component `index` on, with their
symbols, or the symbol of the first that the table lacks. -/
def componentColumns (t : Table) (symbol : String) :
    (index count : Nat) → Except String (List (String × Array Float))
  | _, 0 => .ok []
  | index, count + 1 =>
    match t.find? (componentLabel symbol index) with
    | none => .error (componentLabel symbol index)
    | some values =>
      match t.componentColumns symbol (index + 1) count with
      | .error label => .error label
      | .ok columns => .ok ((componentLabel symbol index, values) :: columns)

/-- The values in row `index`, with the symbols of their columns; none beyond the last row. -/
def row (t : Table) (index : Nat) : List (String × Float) :=
  t.columns.entries.filterMap fun entry ↦ entry.2[index]?.map fun value ↦ (entry.1, value)

end Table

end Tradeoff
