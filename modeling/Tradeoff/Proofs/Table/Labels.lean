import Tradeoff.Formula.Token
import Tradeoff.Problem.Draft

/-!
# Labels of components

The label of a component tells the vector and the index apart, and no label is an identifier. So the
columns of variables whose symbols are different identifiers have different symbols
(`nodup_columnLabels`), and none of them is the symbol of anything else.
-/

namespace Tradeoff

/-! ### Identifiers -/

/-- All characters of an identifier may be in a name. -/
theorem isIdentifierRest_of_mem {name : String} (h : isIdentifier name) {c : Char}
    (hc : c ∈ name.toList) : isIdentifierRest c := by
  unfold isIdentifier at h
  rcases hname : name.toList with _ | ⟨first, rest⟩
  · rw [hname] at hc
    exact absurd hc List.not_mem_nil
  · rw [hname] at h hc
    simp only [Bool.and_eq_true, isIdentifierStart, Bool.or_eq_true] at h
    rcases List.mem_cons.mp hc with rfl | hc
    · exact Bool.or_eq_true_iff.mpr (h.1.1.1.imp (Bool.or_eq_true_iff.mpr ∘ Or.inl) id)
    · exact List.all_eq_true.mp h.1.1.2 c hc

/-! ### Labels -/

/-- A label is a symbol with the digits of an index in brackets. -/
theorem toList_componentLabel (symbol : String) (index : Nat) :
    (componentLabel symbol index).toList =
      symbol.toList ++ '[' :: (Nat.toDigits 10 index ++ [']']) := by
  simp [componentLabel]

/-- No label is an identifier, because of the bracket. -/
theorem not_isIdentifier_componentLabel (symbol : String) (index : Nat) :
    ¬isIdentifier (componentLabel symbol index) := by
  intro h
  have hmem : '[' ∈ (componentLabel symbol index).toList := by simp [toList_componentLabel]
  exact absurd (isIdentifierRest_of_mem h hmem) (by decide)

theorem bracket_not_mem_toDigits (n : Nat) : '[' ∉ Nat.toDigits 10 n := fun hmem ↦
  absurd (Nat.isDigit_of_mem_toDigits (by decide) (by decide) hmem) (by decide)

theorem toDigits_injective {m n : Nat} (h : Nat.toDigits 10 m = Nat.toDigits 10 n) : m = n := by
  have h' := congrArg (Nat.ofDigitChars 10 · 0) h
  simpa [Nat.ofDigitChars_toDigits] using h'

/-- What stands before and after the last occurrence of a separator is determined. -/
theorem append_cons_inj_of_not_mem {α : Type} {a : α} {xs ys us vs : List α}
    (h : xs ++ a :: us = ys ++ a :: vs) (hus : a ∉ us) (hvs : a ∉ vs) : xs = ys ∧ us = vs := by
  rcases List.append_eq_append_iff.mp h with ⟨ws, hys, htail⟩ | ⟨ws, hxs, htail⟩
  · rcases ws with _ | ⟨w, ws⟩
    · simp_all
    · rw [List.cons_append, List.cons.injEq] at htail
      exact absurd (htail.2 ▸ by simp) hus
  · rcases ws with _ | ⟨w, ws⟩
    · simp_all
    · rw [List.cons_append, List.cons.injEq] at htail
      exact absurd (htail.2 ▸ by simp) hvs

/-- A label determines the vector and the index. -/
theorem componentLabel_inj {symbol symbol' : String} {index index' : Nat} :
    componentLabel symbol index = componentLabel symbol' index' ↔
      symbol = symbol' ∧ index = index' := by
  refine ⟨fun h ↦ ?_, fun ⟨hsymbol, hindex⟩ ↦ by rw [hsymbol, hindex]⟩
  have hlists := congrArg String.toList h
  rw [toList_componentLabel, toList_componentLabel] at hlists
  obtain ⟨hsymbol, hindex⟩ := append_cons_inj_of_not_mem hlists
    (by simp [bracket_not_mem_toDigits]) (by simp [bracket_not_mem_toDigits])
  exact ⟨String.toList_injective hsymbol, toDigits_injective (List.append_cancel_right hindex)⟩

/-! ### Columns of variables -/

/-- The symbols of `count` components of a vector variable from component `index` on. -/
def componentLabels (symbol : String) : (index count : Nat) → List String
  | _, 0 => []
  | index, count + 1 => componentLabel symbol index :: componentLabels symbol (index + 1) count

/-- The symbols of the columns of a decision variable. -/
def Variable.columnLabels (v : Variable) : List String :=
  match v.shape with
  | .scalar => [v.symbol]
  | .vector length => componentLabels v.symbol 1 length

/-- The labels of components are those of the indices in their range. -/
theorem mem_componentLabels {symbol label : String} {index count : Nat} :
    label ∈ componentLabels symbol index count ↔
      ∃ i, index ≤ i ∧ i < index + count ∧ label = componentLabel symbol i := by
  induction count generalizing index with
  | zero => simp [componentLabels]; omega
  | succ count ih =>
    rw [componentLabels, List.mem_cons, ih]
    constructor
    · rintro (rfl | ⟨i, hle, hlt, rfl⟩)
      · exact ⟨index, by omega, by omega, rfl⟩
      · exact ⟨i, by omega, by omega, rfl⟩
    · rintro ⟨i, hle, hlt, rfl⟩
      rcases Nat.eq_or_lt_of_le hle with rfl | hlt'
      · exact Or.inl rfl
      · exact Or.inr ⟨i, by omega, by omega, rfl⟩

/-- No two components have the same label. -/
theorem nodup_componentLabels (symbol : String) (index count : Nat) :
    (componentLabels symbol index count).Nodup := by
  induction count generalizing index with
  | zero => exact List.nodup_nil
  | succ count ih =>
    refine List.nodup_cons.mpr ⟨fun hmem ↦ ?_, ih (index + 1)⟩
    obtain ⟨i, hle, -, heq⟩ := mem_componentLabels.mp hmem
    have : index = i := (componentLabel_inj.mp heq).2
    omega

namespace Variable

/-- A column of a variable belongs to it: it has its symbol or the label of a component. -/
theorem mem_columnLabels {v : Variable} {label : String} (h : label ∈ v.columnLabels) :
    label = v.symbol ∨ ∃ index, label = componentLabel v.symbol index := by
  unfold columnLabels at h
  split at h
  · exact Or.inl (List.mem_singleton.mp h)
  · obtain ⟨index, -, -, rfl⟩ := mem_componentLabels.mp h
    exact Or.inr ⟨index, rfl⟩

/-- No two columns of a variable have the same label. -/
theorem nodup_columnLabels (v : Variable) : v.columnLabels.Nodup := by
  unfold columnLabels
  split
  · exact List.nodup_cons.mpr ⟨List.not_mem_nil, List.nodup_nil⟩
  · exact nodup_componentLabels _ _ _

/-- An identifier names no column of a variable but the one of a scalar with that symbol. -/
theorem eq_symbol_of_mem_columnLabels {v : Variable} {label : String} (h : label ∈ v.columnLabels)
    (hid : isIdentifier label) : label = v.symbol := by
  rcases mem_columnLabels h with heq | ⟨index, rfl⟩
  · exact heq
  · exact absurd hid (not_isIdentifier_componentLabel v.symbol index)

/-- Variables whose symbols are different identifiers have different columns. -/
theorem symbol_eq_of_mem_columnLabels {v w : Variable} {label : String}
    (hv : isIdentifier v.symbol) (hw : isIdentifier w.symbol) (hmem : label ∈ v.columnLabels)
    (hmem' : label ∈ w.columnLabels) : v.symbol = w.symbol := by
  rcases mem_columnLabels hmem with rfl | ⟨index, rfl⟩
  · exact eq_symbol_of_mem_columnLabels hmem' hv
  · rcases mem_columnLabels hmem' with heq | ⟨index', heq⟩
    · exact absurd (heq ▸ hw) (not_isIdentifier_componentLabel v.symbol index)
    · exact (componentLabel_inj.mp heq).1

end Variable

/-- The columns of variables with different identifiers have different symbols. -/
theorem nodup_flatMap_columnLabels {decisions : List Variable}
    (hid : ∀ v ∈ decisions, isIdentifier v.symbol) (hnodup : (decisions.map (·.symbol)).Nodup) :
    (decisions.flatMap Variable.columnLabels).Nodup := by
  induction decisions with
  | nil => exact List.nodup_nil
  | cons v decisions ih =>
    obtain ⟨hnew, hnodup⟩ := List.nodup_cons.mp hnodup
    rw [List.flatMap_cons, List.nodup_append]
    refine ⟨v.nodup_columnLabels, ih (fun w hw ↦ hid w (List.mem_cons_of_mem _ hw)) hnodup, ?_⟩
    rintro label hlabel _ hlabel' rfl
    obtain ⟨w, hw, hmem⟩ := List.mem_flatMap.mp hlabel'
    have hsymbol : v.symbol = w.symbol := Variable.symbol_eq_of_mem_columnLabels
      (hid v List.mem_cons_self) (hid w (List.mem_cons_of_mem _ hw)) hlabel hmem
    exact hnew (List.mem_map.mpr ⟨w, hw, hsymbol.symm⟩)

end Tradeoff
