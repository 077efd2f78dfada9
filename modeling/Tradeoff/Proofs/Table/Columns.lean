import Tradeoff.Table

/-!
# Adding columns to a table

Columns with new symbols and the right length can be added one after another, and they come after
the columns there are, in their order. Conversely, whatever could be added has been added so.
`Table.HasRows` says that every column has so many values; unlike `Table.rows` it leaves the number
open for a table without columns.
-/

namespace Tradeoff

namespace Table

/-- Every column has so many values. -/
def HasRows (t : Table) (rows : Nat) : Prop :=
  ∀ entry ∈ t.columns.entries, entry.2.size = rows

theorem hasRows_empty (rows : Nat) : empty.HasRows rows :=
  fun _ hmem ↦ absurd hmem List.not_mem_nil

theorem hasRows_rows (t : Table) : t.HasRows t.rows := t.uniform

/-- Of a table with `n` rows, a new column with as many values can be added. -/
theorem HasRows.exists_insert {t : Table} {rows : Nat} (h : t.HasRows rows) {symbol : String}
    {values : Array Float} (hnew : symbol ∉ t.symbols) (hsize : values.size = rows) :
    ∃ t', t.insert symbol values = .ok t' ∧ t'.HasRows rows ∧
      t'.columns.entries = t.columns.entries ++ [(symbol, values)] := by
  have hfit : t.columns.entries = [] ∨ values.size = t.rows := by
    rcases hentries : t.columns.entries with _ | ⟨entry, entries⟩
    · exact Or.inl rfl
    · refine Or.inr ?_
      have hentry : entry.2.size = rows := h entry (hentries ▸ List.mem_cons_self)
      rw [hsize, Table.rows, hentries, rowCount, hentry]
  have hnew' : symbol ∉ t.columns.keys := hnew
  refine ⟨_, by rw [insert, dif_neg hnew', dif_pos hfit], fun entry hmem ↦ ?_, rfl⟩
  rcases List.mem_append.mp hmem with hmem | hmem
  · exact h entry hmem
  · rw [List.mem_singleton.mp hmem]
    exact hsize

/-- A column with a symbol that is there is refused. -/
theorem insert_of_mem {t : Table} {symbol : String} (h : symbol ∈ t.symbols)
    (values : Array Float) : t.insert symbol values = .error (.duplicateColumn symbol) := by
  have hkeys : symbol ∈ t.columns.keys := h
  rw [insert, dif_pos hkeys]

/-! ### Many columns -/

@[simp] theorem insertAll_nil (t : Table) : t.insertAll [] = .ok t := rfl

/-- Columns are added one after the other. -/
theorem insertAll_cons (t : Table) (symbol : String) (values : Array Float)
    (columns : List (String × Array Float)) :
    t.insertAll ((symbol, values) :: columns) =
      (t.insert symbol values).bind fun t ↦ t.insertAll columns := rfl

/-- What has been added comes after what was there. -/
theorem entries_of_insertAll {t t' : Table} {columns : List (String × Array Float)}
    (h : t.insertAll columns = .ok t') : t'.columns.entries = t.columns.entries ++ columns := by
  induction columns generalizing t with
  | nil =>
    cases h
    exact (List.append_nil _).symm
  | cons column columns ih =>
    obtain ⟨symbol, values⟩ := column
    rw [insertAll_cons] at h
    rcases hinsert : t.insert symbol values with e | next
    · rw [hinsert] at h
      cases h
    · rw [hinsert] at h
      obtain ⟨_, _, hentries⟩ := insert_eq_ok_iff.mp hinsert
      rw [ih h, hentries, List.append_assoc, List.singleton_append]

theorem symbols_of_insertAll {t t' : Table} {columns : List (String × Array Float)}
    (h : t.insertAll columns = .ok t') : t'.symbols = t.symbols ++ columns.map Prod.fst := by
  simp [symbols, SymbolMap.keys, entries_of_insertAll h]

/-- Columns of the same length keep the length right. -/
theorem HasRows.insertAll {t t' : Table} {rows : Nat} {columns : List (String × Array Float)}
    (ht : t.HasRows rows) (hcolumns : ∀ column ∈ columns, column.2.size = rows)
    (h : t.insertAll columns = .ok t') : t'.HasRows rows := by
  intro entry hmem
  rw [entries_of_insertAll h] at hmem
  exact (List.mem_append.mp hmem).elim (ht entry) (hcolumns entry)

/-- Columns with new symbols and the right length can be added. -/
theorem HasRows.exists_insertAll {t : Table} {rows : Nat} (ht : t.HasRows rows)
    (columns : List (String × Array Float)) (hnew : (t.symbols ++ columns.map Prod.fst).Nodup)
    (hcolumns : ∀ column ∈ columns, column.2.size = rows) : ∃ t', t.insertAll columns = .ok t' := by
  induction columns generalizing t with
  | nil => exact ⟨t, rfl⟩
  | cons column columns ih =>
    obtain ⟨symbol, values⟩ := column
    have hsymbol : symbol ∉ t.symbols := fun hmem ↦
      (List.nodup_append.mp hnew).2.2 symbol hmem symbol List.mem_cons_self rfl
    obtain ⟨next, hinsert, hnext, -⟩ :=
      ht.exists_insert hsymbol (hcolumns (symbol, values) List.mem_cons_self)
    have hnodup : (next.symbols ++ columns.map Prod.fst).Nodup := by
      rw [symbols_of_insert hinsert, List.append_assoc, List.singleton_append]
      exact hnew
    obtain ⟨t', ht'⟩ := ih hnext hnodup fun column hmem ↦
      hcolumns column (List.mem_cons_of_mem _ hmem)
    exact ⟨t', by rw [insertAll_cons, hinsert, Except.bind, ht']⟩

end Table

end Tradeoff
