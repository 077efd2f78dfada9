/-!
# Finite maps from symbols

Two kinds of finite map are needed, which differ in the order of their entries.

* `SymbolMap` keeps the order in which symbols were first bound: columns of a table, bindings of an
  environment. Binding a symbol again keeps its place.
* `SortedMap` keeps the order of the symbols: stored samples, fields of a description, the symbols
  an expression mentions.

Both are lists of entries with an invariant, and their lists of symbols have no duplicates. The
view of either is `entries`; `find?` looks a symbol up.
-/

namespace Tradeoff

/-! ### Entries -/

/-- The first entry is looked at first. -/
theorem lookup_cons {α : Type} (entry : String × α) (entries : List (String × α))
    (symbol : String) :
    (entry :: entries).lookup symbol =
      if symbol = entry.1 then some entry.2 else entries.lookup symbol := by
  obtain ⟨key, value⟩ := entry
  rw [List.lookup_cons]
  by_cases h : symbol = key
  · simp [h]
  · have hbeq : (symbol == key) = false := beq_eq_false_iff_ne.mpr h
    simp [hbeq, h]

/-- Values can be changed after they are looked up. -/
theorem lookup_map {α β : Type} (g : String → α → β) (entries : List (String × α))
    (symbol : String) :
    (entries.map fun entry ↦ (entry.1, g entry.1 entry.2)).lookup symbol =
      (entries.lookup symbol).map (g symbol) := by
  induction entries with
  | nil => rfl
  | cons entry entries ih =>
    rw [List.map_cons, lookup_cons, lookup_cons, ih]
    split
    · next heq => rw [heq, Option.map_some]
    · rfl

/-- A symbol is not found exactly if no entry has it. -/
theorem lookup_eq_none_iff_not_mem {α : Type} {entries : List (String × α)} {symbol : String} :
    entries.lookup symbol = none ↔ symbol ∉ entries.map Prod.fst := by
  induction entries with
  | nil => simp
  | cons entry entries ih =>
    rw [lookup_cons, List.map_cons, List.mem_cons, not_or, ← ih]
    by_cases h : symbol = entry.1 <;> simp [h]

/-- If no symbol has two entries, looking up finds exactly the entries. -/
theorem lookup_eq_some_iff_mem {α : Type} {entries : List (String × α)} {symbol : String}
    {value : α} (h : (entries.map Prod.fst).Nodup) :
    entries.lookup symbol = some value ↔ (symbol, value) ∈ entries := by
  induction entries with
  | nil => simp
  | cons entry entries ih =>
    obtain ⟨hnotMem, htail⟩ := List.nodup_cons.mp h
    rw [lookup_cons, List.mem_cons, ← ih htail]
    by_cases heq : symbol = entry.1
    · subst heq
      have hnone : entries.lookup entry.1 = none := lookup_eq_none_iff_not_mem.mpr hnotMem
      simp [hnone, Prod.ext_iff, eq_comm]
    · simp [heq, Prod.ext_iff]

/-! ### Order of first binding -/

/-- A finite map from symbols in the order in which they were first bound. -/
structure SymbolMap (α : Type) where
  /-- The entries in order. -/
  entries : List (String × α)
  /-- No symbol has two entries. -/
  nodup : (entries.map Prod.fst).Nodup

namespace SymbolMap

variable {α : Type}

/-- The map without entries. -/
def empty : SymbolMap α := ⟨[], List.nodup_nil⟩

instance : Inhabited (SymbolMap α) := ⟨empty⟩

/-- The bound symbols in order. -/
def keys (m : SymbolMap α) : List String := m.entries.map Prod.fst

/-- What a symbol is bound to. -/
def find? (m : SymbolMap α) (symbol : String) : Option α := m.entries.lookup symbol

/-- Entries with `symbol` bound to `value`: in place if the symbol is bound, else at the end. -/
def put (symbol : String) (value : α) : List (String × α) → List (String × α)
  | [] => [(symbol, value)]
  | entry :: entries =>
    if entry.1 = symbol then (symbol, value) :: entries
    else entry :: put symbol value entries

/-- Writing an entry adds its symbol at the end, unless there is one with it. -/
theorem map_fst_put (symbol : String) (value : α) (entries : List (String × α)) :
    (put symbol value entries).map Prod.fst =
      if symbol ∈ entries.map Prod.fst then entries.map Prod.fst
      else entries.map Prod.fst ++ [symbol] := by
  induction entries with
  | nil => simp [put]
  | cons entry entries ih =>
    by_cases h : entry.1 = symbol
    · simp [put, h]
    · have h' : symbol ≠ entry.1 := fun e ↦ h e.symm
      simp only [put, h, if_false, List.map_cons, ih, List.mem_cons, h', false_or]
      split <;> simp

/-- An entry with a new symbol comes last. -/
theorem put_of_not_mem {symbol : String} {value : α} {entries : List (String × α)}
    (h : symbol ∉ entries.map Prod.fst) :
    put symbol value entries = entries ++ [(symbol, value)] := by
  induction entries with
  | nil => rfl
  | cons entry entries ih =>
    rw [List.map_cons, List.mem_cons, not_or] at h
    rw [put, if_neg fun heq ↦ h.1 heq.symm, ih h.2, List.cons_append]

/-- Writing an entry makes no duplicates. -/
theorem nodup_put (symbol : String) (value : α) {entries : List (String × α)}
    (h : (entries.map Prod.fst).Nodup) : ((put symbol value entries).map Prod.fst).Nodup := by
  rw [map_fst_put]
  split
  · exact h
  · next hmem =>
    rw [List.nodup_append]
    exact ⟨h, by simp, fun a ha b hb ↦ by
      rw [List.mem_singleton.mp hb]
      exact fun e ↦ hmem (e ▸ ha)⟩

/-- Binds a symbol. A symbol bound before keeps its place and loses its old value. -/
def set (m : SymbolMap α) (symbol : String) (value : α) : SymbolMap α :=
  ⟨put symbol value m.entries, nodup_put symbol value m.nodup⟩

/-- Binds a symbol that is not bound yet, at the end. -/
def push (m : SymbolMap α) (symbol : String) (value : α) (h : symbol ∉ m.keys) : SymbolMap α :=
  ⟨m.entries ++ [(symbol, value)], by
    rw [List.map_append, List.nodup_append]
    exact ⟨m.nodup, by simp, fun a ha b hb ↦ by
      rw [List.mem_singleton.mp hb]
      rintro rfl
      exact h ha⟩⟩

@[simp] theorem find?_empty (symbol : String) : (empty : SymbolMap α).find? symbol = none := rfl

theorem find?_eq_none_iff {m : SymbolMap α} {symbol : String} :
    m.find? symbol = none ↔ symbol ∉ m.keys := lookup_eq_none_iff_not_mem

/-- What is found for a symbol is the value of its only entry. -/
theorem find?_eq_some_iff {m : SymbolMap α} {symbol : String} {value : α} :
    m.find? symbol = some value ↔ (symbol, value) ∈ m.entries := lookup_eq_some_iff_mem m.nodup

/-- After an entry is written, its value is found for its symbol, and for the others what was found
before. -/
theorem lookup_put (symbol s : String) (value : α) (entries : List (String × α)) :
    (put symbol value entries).lookup s =
      if s = symbol then some value else entries.lookup s := by
  induction entries with
  | nil => exact lookup_cons _ _ _
  | cons entry entries ih =>
    unfold put
    split
    · next heq => by_cases h : s = symbol <;> simp [lookup_cons, heq, h]
    · next hne =>
      rw [lookup_cons, lookup_cons, ih]
      by_cases h : s = entry.1
      · have hs : s ≠ symbol := fun e ↦ hne (h.symm.trans e)
        simp only [if_neg hs, if_pos h]
      · simp [h]

theorem find?_push (m : SymbolMap α) (symbol s : String) (value : α) (h : symbol ∉ m.keys) :
    (m.push symbol value h).find? s = if s = symbol then some value else m.find? s := by
  have hnone : m.entries.lookup symbol = none := lookup_eq_none_iff_not_mem.mpr h
  by_cases hs : s = symbol
  · simp [find?, push, List.lookup_append, hs, hnone]
  · simp [find?, push, List.lookup_append, lookup_cons, hs]

theorem find?_set (m : SymbolMap α) (symbol s : String) (value : α) :
    (m.set symbol value).find? s = if s = symbol then some value else m.find? s :=
  lookup_put symbol s value m.entries

end SymbolMap

/-! ### Order of the symbols -/

/-- A finite map from symbols in the order of the symbols, which compares them character by
character. -/
structure SortedMap (α : Type) where
  /-- The entries in order. -/
  entries : List (String × α)
  /-- Symbols increase strictly from entry to entry. -/
  sorted : entries.Pairwise fun a b ↦ a.1 < b.1

namespace SortedMap

variable {α : Type}

/-- The map without entries. -/
def empty : SortedMap α := ⟨[], .nil⟩

instance : Inhabited (SortedMap α) := ⟨empty⟩

/-- The bound symbols in order. -/
def keys (m : SortedMap α) : List String := m.entries.map Prod.fst

/-- What a symbol is bound to. -/
def find? (m : SortedMap α) (symbol : String) : Option α := m.entries.lookup symbol

/-- Entries with `symbol` bound to `value`, in its place in the order. -/
def put (symbol : String) (value : α) : List (String × α) → List (String × α)
  | [] => [(symbol, value)]
  | entry :: entries =>
    if symbol < entry.1 then (symbol, value) :: entry :: entries
    else if symbol = entry.1 then (symbol, value) :: entries
    else entry :: put symbol value entries

/-- The entries after an insertion are the old ones and the new one. -/
theorem mem_put {symbol : String} {value : α} {entries : List (String × α)} {e : String × α}
    (h : e ∈ put symbol value entries) : e = (symbol, value) ∨ e ∈ entries := by
  induction entries with
  | nil => exact Or.inl (List.mem_singleton.mp h)
  | cons entry entries ih =>
    unfold put at h
    split at h
    · exact List.mem_cons.mp h
    · split at h
      · rcases List.mem_cons.mp h with h | h
        · exact Or.inl h
        · exact Or.inr (List.mem_cons_of_mem _ h)
      · rcases List.mem_cons.mp h with h | h
        · exact Or.inr (h ▸ List.mem_cons_self)
        · exact (ih h).imp id (List.mem_cons_of_mem _)

/-- An insertion keeps the entries in order. -/
theorem pairwise_put (symbol : String) (value : α) {entries : List (String × α)}
    (h : entries.Pairwise fun a b ↦ a.1 < b.1) :
    (put symbol value entries).Pairwise fun a b ↦ a.1 < b.1 := by
  induction entries with
  | nil => exact List.pairwise_singleton _ _
  | cons entry entries ih =>
    obtain ⟨hhead, htail⟩ := List.pairwise_cons.mp h
    unfold put
    split
    · next hlt =>
      refine List.pairwise_cons.mpr ⟨fun e he ↦ ?_, h⟩
      rcases List.mem_cons.mp he with rfl | he
      · exact hlt
      · exact String.lt_trans hlt (hhead e he)
    · split
      · next heq => exact List.pairwise_cons.mpr ⟨fun e he ↦ heq ▸ hhead e he, htail⟩
      · next hnlt hne =>
        have hgt : entry.1 < symbol :=
          Std.lt_of_le_of_ne (String.not_lt.mp hnlt) fun e ↦ hne e.symm
        refine List.pairwise_cons.mpr ⟨fun e he ↦ ?_, ih htail⟩
        rcases mem_put he with rfl | he
        · exact hgt
        · exact hhead e he

/-- Binds a symbol, in place of an old value if there is one. -/
def insert (m : SortedMap α) (symbol : String) (value : α) : SortedMap α :=
  ⟨put symbol value m.entries, pairwise_put symbol value m.sorted⟩

/-- No symbol has two entries. -/
theorem nodup_keys (m : SortedMap α) : m.keys.Nodup := by
  refine List.pairwise_map.mpr (m.sorted.imp fun {a b} h heq ↦ ?_)
  rw [heq] at h
  exact String.lt_irrefl _ h

@[simp] theorem find?_empty (symbol : String) : (empty : SortedMap α).find? symbol = none := rfl

theorem find?_eq_none_iff {m : SortedMap α} {symbol : String} :
    m.find? symbol = none ↔ symbol ∉ m.keys := lookup_eq_none_iff_not_mem

/-- What is found for a symbol is the value of its only entry. -/
theorem find?_eq_some_iff {m : SortedMap α} {symbol : String} {value : α} :
    m.find? symbol = some value ↔ (symbol, value) ∈ m.entries :=
  lookup_eq_some_iff_mem m.nodup_keys

/-- After an insertion the value is found for its symbol, and for the others what was found
before. -/
theorem lookup_put (symbol s : String) (value : α) (entries : List (String × α)) :
    (put symbol value entries).lookup s =
      if s = symbol then some value else entries.lookup s := by
  induction entries with
  | nil => exact lookup_cons _ _ _
  | cons entry entries ih =>
    unfold put
    split
    · exact lookup_cons _ _ _
    · split
      · next heq => by_cases h : s = symbol <;> simp [lookup_cons, ← heq, h]
      · next hne =>
        rw [lookup_cons, lookup_cons, ih]
        by_cases h : s = entry.1
        · have hs : s ≠ symbol := fun e ↦ hne (e.symm.trans h)
          simp only [if_neg hs, if_pos h]
        · simp [h]

theorem find?_insert (m : SortedMap α) (symbol s : String) (value : α) :
    (m.insert symbol value).find? s = if s = symbol then some value else m.find? s :=
  lookup_put symbol s value m.entries

/-- The map with the given entries; of entries with one symbol the last counts. -/
def ofList (entries : List (String × α)) : SortedMap α :=
  entries.foldl (fun m entry ↦ m.insert entry.1 entry.2) empty

end SortedMap

/-- The symbols of a list, in order and each once. -/
def sortSymbols (symbols : List String) : List String :=
  (SortedMap.ofList (symbols.map fun symbol ↦ (symbol, ()))).keys

theorem SortedMap.mem_keys_insert {α : Type} {m : SortedMap α} {symbol s : String} {value : α} :
    s ∈ (m.insert symbol value).keys ↔ s = symbol ∨ s ∈ m.keys := by
  have hinsert : (m.insert symbol value).find? s = none ↔ _ := find?_eq_none_iff
  have hm : m.find? s = none ↔ _ := find?_eq_none_iff
  rw [find?_insert] at hinsert
  by_cases h : s = symbol
  · simpa [h] using hinsert
  · simp only [h, if_false, false_or] at hinsert ⊢
    exact Decidable.not_iff_not.mp (hinsert.symm.trans hm)

/-- Inserting entries one after another binds their symbols beside those bound before. -/
theorem mem_keys_foldl_insert {α : Type} (entries : List (String × α)) (m : SortedMap α)
    (symbol : String) :
    symbol ∈ (entries.foldl (fun m entry ↦ m.insert entry.1 entry.2) m).keys ↔
      symbol ∈ entries.map Prod.fst ∨ symbol ∈ m.keys := by
  induction entries generalizing m with
  | nil => simp
  | cons entry entries ih =>
    rw [List.foldl_cons, ih, SortedMap.mem_keys_insert, List.map_cons, List.mem_cons]
    exact or_left_comm.trans or_assoc.symm

/-- Sorting symbols leaves out none and adds none. -/
theorem mem_sortSymbols {symbols : List String} {symbol : String} :
    symbol ∈ sortSymbols symbols ↔ symbol ∈ symbols := by
  have h := mem_keys_foldl_insert (symbols.map fun symbol ↦ (symbol, ())) .empty symbol
  simpa [sortSymbols, SortedMap.ofList, SortedMap.empty, SortedMap.keys] using h

end Tradeoff
