import Tradeoff.Proofs.Table.Columns
import Tradeoff.Table.Store

/-!
# What additions leave

A table holds what was added to it, in order, whatever else was refused. An addition of several
columns ends at the first that is refused, with those before it added (`AddedUpTo`), and additions
are made in turn (`AddedInTurn`). A column is refused because of its symbol or else because of its
length, and for no other reason (`RefusedAfter`).

All this is proved of tables, whose type says that the columns form a table, and holds of stores,
because every store that comes about is that of a table (`Table.store`): an addition writes to the
store what it adds to the table, and nothing if it is refused (`ColumnStore.run_insert_store`).
-/

namespace Tradeoff

/-! ### Columns after others -/

/-- The columns form a table: their symbols are distinct and their lengths are equal. -/
structure FormTable (columns : List (String × Array Float)) : Prop where
  /-- The symbols are distinct. -/
  distinct : (columns.map Prod.fst).Nodup
  /-- The lengths are equal. -/
  uniform : ∀ column ∈ columns, ∀ other ∈ columns, column.2.size = other.2.size

/-- Why a column cannot come after others. -/
inductive RefusedAfter (columns : List (String × Array Float)) :
    String × Array Float → TableError → Prop where
  /-- Its symbol is taken. -/
  | duplicate {symbol : String} {values : Array Float} : symbol ∈ columns.map Prod.fst →
      RefusedAfter columns (symbol, values) (.duplicateColumn symbol)
  /-- Its symbol is new, but another column has another length. -/
  | length {symbol : String} {values : Array Float} {other : String × Array Float} :
      symbol ∉ columns.map Prod.fst → other ∈ columns → values.size ≠ other.2.size →
      RefusedAfter columns (symbol, values) (.lengthMismatch symbol other.2.size values.size)

/-- What is there when columns are added after others, and the answer: all of them, or those before
the first that is refused. -/
inductive AddedUpTo (before wanted : List (String × Array Float)) :
    List (String × Array Float) → Option TableError → Prop where
  /-- All are added. -/
  | all : FormTable (before ++ wanted) → AddedUpTo before wanted (before ++ wanted) none
  /-- One is refused after those before it have been added. -/
  | refused {added rest : List (String × Array Float)} {column : String × Array Float}
      {e : TableError} :
      wanted = added ++ column :: rest → FormTable (before ++ added) →
      RefusedAfter (before ++ added) column e → AddedUpTo before wanted (before ++ added) (some e)

/-- The columns to be added. Components are counted from one. -/
def Addition.columns : Addition → List (String × Array Float)
  | column symbol values => [(symbol, values)]
  | vector symbol components =>
    components.mapIdx fun i values ↦ (componentLabel symbol (i + 1), values)

/-- What is there after additions, with their answers. -/
inductive AddedInTurn : List (String × Array Float) → List Addition →
    List (String × Array Float) → List (Option TableError) → Prop where
  /-- Nothing is added. -/
  | nil {columns : List (String × Array Float)} : AddedInTurn columns [] columns []
  /-- One addition comes first, and the others come after what it leaves. -/
  | cons {addition : Addition} {additions : List Addition}
      {before middle after : List (String × Array Float)} {answer : Option TableError}
      {answers : List (Option TableError)} :
      AddedUpTo before addition.columns middle answer → AddedInTurn middle additions after answers →
      AddedInTurn before (addition :: additions) after (answer :: answers)

namespace AddedUpTo

variable {before wanted after : List (String × Array Float)} {answer : Option TableError}

/-- Nothing is added if nothing was to be. -/
theorem nil (h : FormTable before) : AddedUpTo before [] before none := by
  have hall : AddedUpTo before [] (before ++ []) none := .all (by rwa [List.append_nil])
  rwa [List.append_nil] at hall

/-- The first column is refused. -/
theorem head (h : FormTable before) {column : String × Array Float} {e : TableError}
    (hrefused : RefusedAfter before column e) :
    AddedUpTo before (column :: wanted) before (some e) := by
  have hnone : before ++ [] = before := List.append_nil before
  have hup : AddedUpTo before (column :: wanted) (before ++ []) (some e) :=
    .refused rfl (hnone.symm ▸ h) (hnone.symm ▸ hrefused)
  rwa [hnone] at hup

/-- The first column is added. -/
theorem cons {column : String × Array Float}
    (h : AddedUpTo (before ++ [column]) wanted after answer) :
    AddedUpTo before (column :: wanted) after answer := by
  obtain hform | ⟨rfl, hform, hrefused⟩ := h
  · rw [← List.append_cons] at hform ⊢
    exact .all hform
  · rw [← List.append_cons] at hform hrefused ⊢
    exact .refused rfl hform hrefused

/-- What was there before stays in front. -/
theorem isPrefix (h : AddedUpTo before wanted after answer) : before <+: after := by
  obtain - | - := h
  · exact List.prefix_append _ _
  · exact List.prefix_append _ _

/-- A single column is refused altogether. -/
theorem eq_of_singleton {column : String × Array Float} {e : TableError}
    (h : AddedUpTo before [column] after (some e)) : after = before := by
  obtain - | ⟨hwanted, -, -⟩ := h
  rcases List.append_eq_singleton_iff.mp hwanted.symm with ⟨rfl, -⟩ | ⟨-, hrest⟩
  · exact List.append_nil before
  · exact absurd hrest (List.cons_ne_nil _ _)

end AddedUpTo

theorem AddedInTurn.isPrefix {before after : List (String × Array Float)}
    {additions : List Addition} {answers : List (Option TableError)}
    (h : AddedInTurn before additions after answers) : before <+: after := by
  induction h with
  | nil => exact List.prefix_rfl
  | cons hfirst _ ih => exact hfirst.isPrefix.trans ih

/-! ### Tables -/

namespace Table

variable {t t' : Table}

/-- The entries of a table form a table. -/
theorem formTable (t : Table) : FormTable t.columns.entries where
  distinct := t.columns.nodup
  uniform column hcolumn other hother :=
    (t.uniform column hcolumn).trans (t.uniform other hother).symm

/-- A column is refused for these reasons and no others. -/
theorem insert_eq_error_iff {symbol : String} {values : Array Float} {e : TableError} :
    t.insert symbol values = .error e ↔ RefusedAfter t.columns.entries (symbol, values) e := by
  constructor
  · intro h
    unfold insert at h
    split at h
    · next hmem =>
      cases h
      exact .duplicate hmem
    · next hnew =>
      split at h
      · cases h
      · next hmisfit =>
        cases h
        obtain ⟨hne, hsize⟩ := not_or.mp hmisfit
        obtain ⟨other, hother⟩ := List.exists_mem_of_ne_nil _ hne
        have hrows : other.2.size = t.rows := t.uniform other hother
        rw [← hrows] at hsize ⊢
        exact .length hnew hother hsize
  · rintro (hmem | ⟨hnew, hother, hsize⟩)
    · exact insert_of_mem hmem values
    · next other =>
      have hrows : other.2.size = t.rows := t.uniform other hother
      rw [hrows] at hsize ⊢
      have hnew' : symbol ∉ t.columns.keys := hnew
      have hmisfit : ¬ (t.columns.entries = [] ∨ values.size = t.rows) :=
        not_or.mpr ⟨List.ne_nil_of_mem hother, hsize⟩
      rw [insert, dif_neg hnew', dif_neg hmisfit]

/-- A column that is refused ends an addition. -/
theorem addedUpTo_of_insert_eq_error {symbol : String} {values : Array Float} {e : TableError}
    (h : t.insert symbol values = .error e) (wanted : List (String × Array Float)) :
    AddedUpTo t.columns.entries ((symbol, values) :: wanted) t.columns.entries (some e) :=
  .head t.formTable (insert_eq_error_iff.mp h)

/-- A column that is added is followed by the others. -/
theorem addedUpTo_of_insert_eq_ok {symbol : String} {values : Array Float}
    {wanted after : List (String × Array Float)} {answer : Option TableError}
    (h : t.insert symbol values = .ok t')
    (hothers : AddedUpTo t'.columns.entries wanted after answer) :
    AddedUpTo t.columns.entries ((symbol, values) :: wanted) after answer := by
  obtain ⟨-, -, hentries⟩ := insert_eq_ok_iff.mp h
  rw [hentries] at hothers
  exact hothers.cons

/-- Columns are added one after another up to the first that is refused. -/
theorem addedUpTo_insertComponents (t : Table) (symbol : String) (index : Nat)
    (components : List (Array Float)) :
    AddedUpTo t.columns.entries
      (components.mapIdx fun i values ↦ (componentLabel symbol (i + index), values))
      (t.insertComponents symbol index components).1.columns.entries
      (t.insertComponents symbol index components).2 := by
  induction components generalizing t index with
  | nil => exact .nil t.formTable
  | cons values components ih =>
    rw [List.mapIdx_cons, insertComponents, Nat.zero_add]
    rcases hinsert : t.insert (componentLabel symbol index) values with e | next
    · exact addedUpTo_of_insert_eq_error hinsert _
    · refine addedUpTo_of_insert_eq_ok hinsert ?_
      simpa only [Nat.add_right_comm _ 1 index, Nat.add_assoc] using ih next (index + 1)

/-- A table adds the columns of an addition up to the first that is refused. -/
theorem addedUpTo_add (t : Table) (addition : Addition) :
    AddedUpTo t.columns.entries addition.columns (t.add addition).1.columns.entries
      (t.add addition).2 := by
  match addition with
  | .vector symbol components => exact t.addedUpTo_insertComponents symbol 1 components
  | .column symbol values =>
    show AddedUpTo _ [(symbol, values)] _ _
    rw [add]
    rcases hinsert : t.insert symbol values with e | t'
    · exact addedUpTo_of_insert_eq_error hinsert []
    · exact addedUpTo_of_insert_eq_ok hinsert (.nil t'.formTable)

/-- Additions are made one after the other, whatever the answers are. -/
theorem addedInTurn_each (t : Table) (additions : List Addition) :
    AddedInTurn t.columns.entries additions (Addition.each add t additions).1.columns.entries
      (Addition.each add t additions).2 := by
  induction additions generalizing t with
  | nil => exact .nil
  | cons addition additions ih => exact .cons (t.addedUpTo_add addition) (ih _)

/-! ### Tables of given columns -/

/-- A table is made of columns exactly if these become its entries. -/
theorem ofColumns_eq_ok_iff {columns : List (String × Array Float)} :
    ofColumns columns = .ok t ↔ t.columns.entries = columns := by
  constructor
  · exact entries_of_insertAll
  · rintro rfl
    obtain ⟨t', ht'⟩ := (hasRows_empty t.rows).exists_insertAll t.columns.entries t.columns.nodup
      t.uniform
    rw [ofColumns, ht', ext_entries (entries_of_insertAll ht')]

/-- So columns can be made into a table exactly if they form one. -/
theorem exists_ofColumns_iff {columns : List (String × Array Float)} :
    (∃ t, ofColumns columns = .ok t) ↔ FormTable columns := by
  constructor
  · rintro ⟨t, ht⟩
    exact ofColumns_eq_ok_iff.mp ht ▸ t.formTable
  · intro h
    refine (hasRows_empty (rowCount columns)).exists_insertAll columns h.distinct ?_
    match columns, h with
    | [], _ => exact fun _ hmem ↦ absurd hmem List.not_mem_nil
    | first :: _, h => exact fun column hmem ↦ h.uniform column hmem first List.mem_cons_self

/-- Columns that are refused were added up to the one that is. -/
theorem exists_addedUpTo_of_insertAll {columns : List (String × Array Float)} {e : TableError}
    (h : t.insertAll columns = .error e) :
    ∃ after, AddedUpTo t.columns.entries columns after (some e) := by
  induction columns generalizing t with
  | nil => cases h
  | cons column columns ih =>
    obtain ⟨symbol, values⟩ := column
    rw [insertAll_cons] at h
    rcases hinsert : t.insert symbol values with e' | next
    · rw [hinsert] at h
      cases h
      exact ⟨_, addedUpTo_of_insert_eq_error hinsert columns⟩
    · rw [hinsert] at h
      obtain ⟨after, hothers⟩ := ih h
      exact ⟨after, addedUpTo_of_insert_eq_ok hinsert hothers⟩

/-- The error is that of the first column that does not form a table with those before it. -/
theorem ofColumns_eq_error_iff {columns : List (String × Array Float)} {e : TableError} :
    ofColumns columns = .error e ↔
      ∃ added column rest, columns = added ++ column :: rest ∧ FormTable added ∧
        RefusedAfter added column e := by
  constructor
  · intro h
    obtain ⟨after, hadded⟩ := exists_addedUpTo_of_insertAll h
    obtain - | ⟨rfl, hform, hrefused⟩ := hadded
    exact ⟨_, _, _, rfl, hform, hrefused⟩
  · rintro ⟨added, ⟨symbol, values⟩, rest, rfl, hform, hrefused⟩
    obtain ⟨t, ht⟩ := exists_ofColumns_iff.mpr hform
    have hentries := ofColumns_eq_ok_iff.mp ht
    have hinsert : t.insert symbol values = .error e :=
      insert_eq_error_iff.mpr (hentries ▸ hrefused)
    have hsplit : ofColumns (added ++ (symbol, values) :: rest) =
        (ofColumns added).bind fun t ↦ t.insertAll ((symbol, values) :: rest) := List.foldlM_append
    rw [hsplit, ht]
    show t.insertAll ((symbol, values) :: rest) = .error e
    rw [insertAll_cons, hinsert]
    rfl

/-! ### Stores of tables -/

/-- The store in which a table is kept. -/
def store (t : Table) : ColumnStore :=
  ⟨t.columns.entries.head?.map (·.2.size), t.columns.entries⟩

/-- The row count of a store is that of its table, and that of an empty table is zero. -/
theorem rows_store (t : Table) : t.store.rows = t.rows := by
  show (t.columns.entries.head?.map (·.2.size)).getD 0 = rowCount t.columns.entries
  rcases t.columns.entries with - | ⟨column, columns⟩ <;> rfl

/-- Any column tells the number of rows. -/
theorem rows?_store_of_mem {column : String × Array Float} (h : column ∈ t.columns.entries) :
    t.store.rows? = some column.2.size := by
  have hsome := List.isSome_head?.mpr (List.ne_nil_of_mem h)
  obtain ⟨first, hfirst⟩ := Option.isSome_iff_exists.mp hsome
  have hsize := t.formTable.uniform first (List.mem_of_mem_head? hfirst) column h
  show t.columns.entries.head?.map (·.2.size) = some column.2.size
  rw [hfirst, Option.map_some, hsize]

end Table

namespace ColumnStore

variable {s : ColumnStore}

/-- What becomes of a store when a column is added. -/
theorem run_insert (symbol : String) (values : Array Float) (s : ColumnStore) :
    (insert symbol values).run s =
      if symbol ∈ s.columns.map Prod.fst then .error (.duplicateColumn symbol) s
      else
        match s.rows? with
        | none => .ok () ⟨some values.size, SymbolMap.put symbol values s.columns⟩
        | some expected =>
          if expected = values.size then
            .ok () ⟨some values.size, SymbolMap.put symbol values s.columns⟩
          else .error (.lengthMismatch symbol expected values.size) s := by
  obtain ⟨rows?, columns⟩ := s
  rw [insert, EStateM.run_bind, EStateM.run_get]
  dsimp only
  by_cases hmem : symbol ∈ columns.map Prod.fst
  · rw [if_pos hmem, if_pos hmem]
    rfl
  · rw [if_neg hmem, if_neg hmem]
    rcases rows? with - | expected
    · rfl
    · dsimp only
      by_cases hsize : expected = values.size
      · rw [if_neg (not_not_intro hsize), if_pos hsize]
        rfl
      · rw [if_pos hsize, if_neg hsize]
        rfl

/-- The store of a table gets the column that the table gets, and stays as it is if the table
refuses the column. -/
theorem run_insert_store (t : Table) (symbol : String) (values : Array Float) :
    (insert symbol values).run t.store =
      match t.insert symbol values with
      | .error e => .error e t.store
      | .ok t' => .ok () t'.store := by
  rw [run_insert]
  rcases hinsert : t.insert symbol values with e | t'
  · obtain hmem | ⟨hnew, hother, hsize⟩ := Table.insert_eq_error_iff.mp hinsert
    · exact if_pos hmem
    · have hnew' : symbol ∉ t.store.columns.map Prod.fst := hnew
      rw [if_neg hnew', Table.rows?_store_of_mem hother]
      exact if_neg hsize.symm
  · obtain ⟨hnew, -, hentries⟩ := Table.insert_eq_ok_iff.mp hinsert
    have hnew' : symbol ∉ t.store.columns.map Prod.fst := hnew
    have hmem : (symbol, values) ∈ t'.columns.entries := by simp [hentries]
    have hstore : t'.store = ⟨some values.size, SymbolMap.put symbol values t.store.columns⟩ := by
      rw [SymbolMap.put_of_not_mem hnew', ← Table.rows?_store_of_mem hmem]
      exact congrArg (ColumnStore.mk t'.store.rows?) hentries
    rw [if_neg hnew', ← hstore]
    -- The number of rows is that of the column already, or it is not known yet.
    rcases hfirst : t.columns.entries with - | ⟨first, rest⟩
    · have hrows : t.store.rows? = none := by simp [Table.store, hfirst]
      rw [hrows]
    · have hfirst : first ∈ t.columns.entries := hfirst ▸ List.mem_cons_self
      have hsize := t'.formTable.uniform first (hentries ▸ List.mem_append_left _ hfirst) _ hmem
      rw [Table.rows?_store_of_mem hfirst]
      exact if_pos hsize

/-- Columns are inserted one after the other. -/
theorem insertAll_cons (symbol : String) (values : Array Float)
    (columns : List (String × Array Float)) :
    insertAll ((symbol, values) :: columns) =
      insert symbol values >>= fun _ ↦ insertAll columns := rfl

/-- What the components add to a table, they add to its store. -/
theorem run_insertAll_componentEntries (t : Table) (symbol : String) (index : Nat)
    (components : List (Array Float)) :
    (insertAll (componentEntries symbol index components)).run t.store =
      match t.insertComponents symbol index components with
      | (t', none) => .ok () t'.store
      | (t', some e) => .error e t'.store := by
  induction components generalizing t index with
  | nil => rfl
  | cons values components ih =>
    rw [componentEntries, insertAll_cons, EStateM.run_bind, run_insert_store,
      Table.insertComponents]
    rcases t.insert (componentLabel symbol index) values with e | next
    · rfl
    · exact ih next (index + 1)

/-- A store takes columns as its table does, up to the first that is refused. -/
theorem run_insertAll_store (t : Table) (columns : List (String × Array Float)) :
    (match (insertAll columns).run t.store with
      | .ok _ s => Except.ok s
      | .error e _ => .error e) = (t.insertAll columns).map Table.store := by
  induction columns generalizing t with
  | nil => rfl
  | cons column columns ih =>
    obtain ⟨symbol, values⟩ := column
    rw [insertAll_cons, EStateM.run_bind, run_insert_store, Table.insertAll_cons]
    rcases t.insert symbol values with e | next
    · rfl
    · exact ih next

/-- Stores of given columns are those of tables. -/
theorem ofColumns_eq (columns : List (String × Array Float)) :
    ofColumns columns = (Table.ofColumns columns).map Table.store :=
  run_insertAll_store .empty columns

/-- An addition makes of the store of a table the store of what it makes of the table. -/
theorem add_store (t : Table) (addition : Addition) :
    t.store.add addition = ((t.add addition).1.store, (t.add addition).2) := by
  match addition with
  | .column symbol values =>
    show (match (insert symbol values).run t.store with
      | .ok _ s => (s, none)
      | .error e s => (s, some e)) = _
    rw [run_insert_store, Table.add]
    rcases t.insert symbol values with e | t' <;> rfl
  | .vector symbol components =>
    show (match (insertAll (componentEntries symbol 1 components)).run t.store with
      | .ok _ s => (s, none)
      | .error e s => (s, some e)) = _
    rw [run_insertAll_componentEntries, Table.add, Table.insertVector]
    rcases t.insertComponents symbol 1 components with ⟨t', - | e⟩ <;> rfl

/-- The answers are the same, and the store stays that of the table. -/
theorem each_store (t : Table) (additions : List Addition) :
    Addition.each add t.store additions =
      ((Addition.each Table.add t additions).1.store, (Addition.each Table.add t additions).2) := by
  induction additions generalizing t with
  | nil => rfl
  | cons addition additions ih =>
    rw [Addition.each, add_store, ih]
    rfl

/-! ### Stores of given columns -/

theorem ofColumns_eq_ok_iff {columns : List (String × Array Float)} :
    ofColumns columns = .ok s ↔ ∃ t : Table, t.store = s ∧ t.columns.entries = columns := by
  rw [ofColumns_eq]
  constructor
  · intro h
    rcases htable : Table.ofColumns columns with e | t
    · rw [htable] at h
      cases h
    · rw [htable] at h
      exact ⟨t, Except.ok.inj h, Table.ofColumns_eq_ok_iff.mp htable⟩
  · rintro ⟨t, rfl, hcolumns⟩
    rw [Table.ofColumns_eq_ok_iff.mpr hcolumns]
    rfl

/-- The error is that of the first column that does not form a table with those before it. -/
theorem ofColumns_eq_error_iff {columns : List (String × Array Float)} {e : TableError} :
    ofColumns columns = .error e ↔
      ∃ added column rest, columns = added ++ column :: rest ∧ FormTable added ∧
        RefusedAfter added column e := by
  rw [← Table.ofColumns_eq_error_iff, ofColumns_eq]
  rcases Table.ofColumns columns with e' | t
  · constructor <;> exact fun h ↦ congrArg Except.error (Except.error.inj h)
  · exact ⟨nofun, nofun⟩

/-- So columns can be made into a store exactly if they form a table. -/
theorem exists_ofColumns_iff {columns : List (String × Array Float)} :
    (∃ s, ofColumns columns = .ok s) ↔ FormTable columns := by
  rw [← Table.exists_ofColumns_iff]
  constructor
  · rintro ⟨s, hs⟩
    obtain ⟨t, -, hcolumns⟩ := ofColumns_eq_ok_iff.mp hs
    exact ⟨t, Table.ofColumns_eq_ok_iff.mpr hcolumns⟩
  · rintro ⟨t, ht⟩
    exact ⟨t.store, ofColumns_eq_ok_iff.mpr ⟨t, rfl, Table.ofColumns_eq_ok_iff.mp ht⟩⟩

/-! ### Stores that come about -/

/-- Every store that comes about is that of a table. -/
theorem exists_store_eq (h : s = empty ∨ ∃ columns, ofColumns columns = .ok s) :
    ∃ t : Table, t.store = s := by
  obtain rfl | ⟨columns, hcolumns⟩ := h
  · exact ⟨.empty, rfl⟩
  · obtain ⟨t, ht, -⟩ := ofColumns_eq_ok_iff.mp hcolumns
    exact ⟨t, ht⟩

/-- A column that is refused leaves the store of a table as it was. -/
theorem eq_of_add_column {t : Table} {symbol : String} {values : Array Float} {e : TableError}
    (h : t.store.add (.column symbol values) = (s, some e)) : s = t.store := by
  rw [add_store] at h
  obtain ⟨rfl, hanswer⟩ := Prod.mk.inj h
  have hup := t.addedUpTo_add (.column symbol values)
  rw [hanswer] at hup
  exact congrArg Table.store (Table.ext_entries hup.eq_of_singleton)

/-- Once there are rows, their number stays. -/
theorem rows?_of_prefix {t t' : Table} (h : t.columns.entries <+: t'.columns.entries) {rows : Nat}
    (hrows : t.store.rows? = some rows) : t'.store.rows? = some rows := by
  obtain ⟨first, hfirst, rfl⟩ := Option.map_eq_some_iff.mp hrows
  exact Table.rows?_store_of_mem (h.subset (List.mem_of_mem_head? hfirst))

/-- **A table keeps what is added to it.** Columns make a store exactly if they form a table, and it
holds them in order; otherwise the first that does not go with those before it is reported.

Whatever is added to a store from nothing or from given columns, and whatever is refused, its
columns form a table, the number of rows is that of the first column and so of every one, and the
columns are those that were added in turn. Nothing else is in the store. A column that is refused
leaves it as it was. What is in it stays there, with the number of rows, whatever is added later.
And the same additions to a table leave the same columns and have the same answers. -/
theorem keeps_additions :
    (∀ columns,
      ((∃ s, ofColumns columns = .ok s) ↔ FormTable columns) ∧
      (∀ s, ofColumns columns = .ok s → s.columns = columns) ∧
      (∀ e, ofColumns columns = .error e ↔
        ∃ added column rest, columns = added ++ column :: rest ∧ FormTable added ∧
          RefusedAfter added column e) ∧
      ofColumns columns = (Table.ofColumns columns).map Table.store) ∧
    ∀ start, (start = empty ∨ ∃ columns, ofColumns columns = .ok start) →
      ∀ additions s answers, Addition.each add start additions = (s, answers) →
        (FormTable s.columns ∧ (∀ column ∈ s.columns, column.2.size = s.rows) ∧
          s.rows? = s.columns.head?.map (·.2.size)) ∧
        AddedInTurn start.columns additions s.columns answers ∧
        ofColumns s.columns = .ok s ∧
        (∀ symbol values s' e, s.add (.column symbol values) = (s', some e) → s' = s) ∧
        (∀ others s' answers', Addition.each add s others = (s', answers') →
          s.columns <+: s'.columns ∧ ∀ rows, s.rows? = some rows → s'.rows? = some rows) ∧
        ∃ t t', t.store = start ∧ Addition.each Table.add t additions = (t', answers) ∧
          t'.store = s := by
  refine ⟨fun columns ↦ ⟨exists_ofColumns_iff, fun s hs ↦ ?_, fun e ↦ ofColumns_eq_error_iff,
    ofColumns_eq columns⟩, fun start hstart additions s answers heach ↦ ?_⟩
  · obtain ⟨t, rfl, hcolumns⟩ := ofColumns_eq_ok_iff.mp hs
    exact hcolumns
  · -- Whatever is added, the store is that of a table.
    obtain ⟨t, rfl⟩ := exists_store_eq hstart
    rw [each_store] at heach
    obtain ⟨rfl, rfl⟩ := Prod.mk.inj heach
    have hturn := t.addedInTurn_each additions
    generalize hleft : Addition.each Table.add t additions = left at hturn ⊢
    obtain ⟨t', answers⟩ := left
    have hsize (column : String × Array Float) (hcolumn : column ∈ t'.store.columns) :
        column.2.size = t'.store.rows := (t'.uniform column hcolumn).trans t'.rows_store.symm
    refine ⟨⟨t'.formTable, hsize, rfl⟩, hturn, ofColumns_eq_ok_iff.mpr ⟨t', rfl, rfl⟩,
      fun symbol values s' e ↦ eq_of_add_column, fun others s' answers' hothers ↦ ?_,
      t, t', rfl, hleft, rfl⟩
    rw [each_store] at hothers
    obtain ⟨rfl, -⟩ := Prod.mk.inj hothers
    have hkept := (t'.addedInTurn_each others).isPrefix
    exact ⟨hkept, fun rows ↦ rows?_of_prefix hkept⟩

/-- Columns of no rows fix the number of rows as well. The second component has the symbol of a
column that is there, so that only the first is added. -/
theorem keeps_additions_of_no_rows :
    ofColumns [("v[2]", #[])] = .ok ⟨some 0, [("v[2]", #[])]⟩ ∧
    Addition.each add ⟨some 0, [("v[2]", #[])]⟩
        [.vector "v" [#[], #[], #[]], .column "x" #[1], .column "x" #[]] =
      (⟨some 0, [("v[2]", #[]), ("v[1]", #[]), ("x", #[])]⟩,
        [some (.duplicateColumn "v[2]"), some (.lengthMismatch "x" 0 1), none]) ∧
    AddedInTurn [("v[2]", #[])] [.vector "v" [#[], #[], #[]], .column "x" #[1], .column "x" #[]]
      [("v[2]", #[]), ("v[1]", #[]), ("x", #[])]
      [some (.duplicateColumn "v[2]"), some (.lengthMismatch "x" 0 1), none] := by
  have hstart : ofColumns [("v[2]", #[])] = .ok ⟨some 0, [("v[2]", #[])]⟩ := rfl
  have heach : Addition.each add ⟨some 0, [("v[2]", #[])]⟩
        [.vector "v" [#[], #[], #[]], .column "x" #[1], .column "x" #[]] =
      (⟨some 0, [("v[2]", #[]), ("v[1]", #[]), ("x", #[])]⟩,
        [some (.duplicateColumn "v[2]"), some (.lengthMismatch "x" 0 1), none]) := rfl
  exact ⟨hstart, heach, (keeps_additions.2 _ (.inr ⟨_, hstart⟩) _ _ _ heach).2.1⟩

end ColumnStore

end Tradeoff
