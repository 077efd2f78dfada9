import Tradeoff.Environment

/-!
# Binding symbols

Symbols that are not bound yet get their bindings at the end of an environment, and all other
bindings stay (`Environment.entries_bindAll`). An environment fits if every column in it has a value
for each of its samples, and it stays so when fitting columns are bound.
-/

namespace Tradeoff

namespace SymbolMap

variable {α : Type}

/-- The entries after an insertion are the old ones and the new one. -/
theorem mem_put {symbol : String} {value : α} {entries : List (String × α)} {entry : String × α}
    (h : entry ∈ put symbol value entries) : entry = (symbol, value) ∨ entry ∈ entries := by
  induction entries with
  | nil => exact Or.inl (List.mem_singleton.mp h)
  | cons first entries ih =>
    unfold put at h
    split at h
    · exact (List.mem_cons.mp h).imp id (List.mem_cons_of_mem _)
    · rcases List.mem_cons.mp h with rfl | h
      · exact Or.inr List.mem_cons_self
      · exact (ih h).imp id (List.mem_cons_of_mem _)

end SymbolMap

/-! ### Columns that fit -/

/-- The column has a value for each of so many samples. -/
def Column.Fits (rows : Nat) : Column → Prop
  | constant _ => True
  | samples values => values.size = rows

/-- Every column of the binding has a value for each of so many samples. -/
def Binding.Fits (rows : Nat) : Binding → Prop
  | scalar column => column.Fits rows
  | vector components => ∀ column ∈ components, column.Fits rows
  | flag _ => True

/-- A column still fits after each of its values is changed. -/
theorem Column.Fits.map {column : Column} {rows : Nat} (h : column.Fits rows) (f : Float → Float) :
    (column.map f).Fits rows := by
  cases column with
  | constant value => trivial
  | samples values => exact (Array.size_map).trans h

/-- Written out, a fitting column has as many values as there are samples. -/
theorem Column.Fits.size_broadcast {column : Column} {rows : Nat} (h : column.Fits rows) :
    (column.broadcast rows).size = rows := by
  cases column with
  | constant value => exact Array.size_replicate
  | samples values => exact h

namespace Environment

/-- Every bound column has a value for each sample. -/
def Fits (env : Environment) : Prop := ∀ entry ∈ env.bindings.entries, entry.2.Fits env.rows

theorem fits_empty (rows : Nat) : (empty rows).Fits := fun _ hmem ↦ absurd hmem List.not_mem_nil

theorem Fits.of_find? {env : Environment} (h : env.Fits) {symbol : String} {binding : Binding}
    (hfind : env.find? symbol = some binding) : binding.Fits env.rows :=
  h (symbol, binding) (SymbolMap.find?_eq_some_iff.mp hfind)

/-- Binding something that fits leaves the environment fitting. -/
theorem Fits.bind {env : Environment} (h : env.Fits) {symbol : String} {binding : Binding}
    (hbinding : binding.Fits env.rows) : (env.bind symbol binding).Fits := by
  intro entry hmem
  rcases SymbolMap.mem_put hmem with rfl | hmem
  · exact hbinding
  · exact h entry hmem

/-! ### New bindings -/

/-- Nothing is found exactly for the symbols that are not bound. -/
theorem find?_eq_none_iff {env : Environment} {symbol : String} :
    env.find? symbol = none ↔ symbol ∉ env.symbols := SymbolMap.find?_eq_none_iff

theorem bindAll_cons (env : Environment) (symbol : String) (binding : Binding)
    (bindings : List (String × Binding)) :
    env.bindAll ((symbol, binding) :: bindings) = (env.bind symbol binding).bindAll bindings := rfl

/-- The first binding is made before the others. -/
theorem entries_bind {env : Environment} {symbol : String} (h : symbol ∉ env.symbols)
    (binding : Binding) :
    (env.bind symbol binding).bindings.entries = env.bindings.entries ++ [(symbol, binding)] :=
  SymbolMap.put_of_not_mem h

/-- A new symbol is the last one. -/
theorem symbols_bind {env : Environment} {symbol : String} (h : symbol ∉ env.symbols)
    (binding : Binding) : (env.bind symbol binding).symbols = env.symbols ++ [symbol] := by
  rw [symbols, SymbolMap.keys, entries_bind h, List.map_append]
  rfl

/-- Binding new symbols replaces no binding. -/
theorem entries_bindAll {env : Environment} {bindings : List (String × Binding)}
    (h : (env.symbols ++ bindings.map Prod.fst).Nodup) :
    (env.bindAll bindings).bindings.entries = env.bindings.entries ++ bindings := by
  induction bindings generalizing env with
  | nil => exact (List.append_nil _).symm
  | cons binding bindings ih =>
    obtain ⟨symbol, binding⟩ := binding
    have hsymbol : symbol ∉ env.symbols := fun hmem ↦
      (List.nodup_append.mp h).2.2 symbol hmem symbol List.mem_cons_self rfl
    have hrest : ((env.bind symbol binding).symbols ++ bindings.map Prod.fst).Nodup := by
      rw [symbols_bind hsymbol, List.append_assoc, List.singleton_append]
      exact h
    rw [bindAll_cons, ih hrest, entries_bind hsymbol, List.append_assoc, List.singleton_append]

/-- Bindings do not change the number of samples. -/
theorem rows_bindAll (env : Environment) (bindings : List (String × Binding)) :
    (env.bindAll bindings).rows = env.rows := by
  induction bindings generalizing env with
  | nil => rfl
  | cons binding bindings ih => exact ih _

/-- Bindings that fit leave the environment fitting, however many there are. -/
theorem Fits.bindAll {env : Environment} (h : env.Fits) {bindings : List (String × Binding)}
    (hbindings : ∀ binding ∈ bindings, binding.2.Fits env.rows) : (env.bindAll bindings).Fits := by
  induction bindings generalizing env with
  | nil => exact h
  | cons binding bindings ih =>
    exact ih (h.bind (hbindings binding List.mem_cons_self)) fun next hmem ↦
      hbindings next (List.mem_cons_of_mem _ hmem)

end Environment

end Tradeoff
