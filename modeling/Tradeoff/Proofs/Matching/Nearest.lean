import Tradeoff.Proofs.Matching.Search
import Tradeoff.Proofs.Problem.Soundness
import Tradeoff.Proofs.Table.Columns

/-!
# Nearest samples

Queries that are answered are answered by the nearest stored samples: `Problem.Answers` says so
without the search and the checks, and `Problem.answers_of_nearestSamples` proves it of every
answer.

The index of a query is that of the first of the nearest samples, and its distance is twice the half
distance (`nearest_spec`), whatever function puts distances together. A sample with the queried
values is at no distance (`halfDistance_eq_zero`), and as no distance is less, it or one before it
is chosen (`nearest_of_eq_zero`). The table has the stored values at the indices and then the
aliases of the objectives among them (`entries_of_lookUp`); as no objective has the symbol of an
alias (`Draft.Sound.symbol_ne_minAlias`), aliases are made of stored values only.
-/

namespace Tradeoff

/-! ### Values that are looked up -/

/-- The values at the given indices. -/
def valuesAt (indices : List Nat) (stored : Array Float) : Array Float :=
  (indices.map fun index ↦ stored[index]?.getD notANumber).toArray

theorem size_valuesAt (indices : List Nat) (stored : Array Float) :
    (valuesAt indices stored).size = indices.length := by
  simp [valuesAt]

/-- A value is stored at the index of its query. -/
theorem getElem?_valuesAt {indices : List Nat} {stored : Array Float} {row index : Nat}
    (h : indices[row]? = some index) (hlt : index < stored.size) :
    (valuesAt indices stored)[row]? = stored[index]? := by
  simp [valuesAt, h, hlt]

namespace Problem

open Coordinate (halfDistance)

/-- Aliases are added in the order of the objectives. -/
theorem entries_of_orientAll {t t' : Table} {objectives : List Objective}
    (hfresh : ∀ f ∈ objectives, ∀ g ∈ objectives, g.symbol ≠ minAlias f.symbol)
    (h : orientAll t objectives = .ok t') :
    t'.columns.entries = t.columns.entries ++ objectives.filterMap fun f ↦
      (t.find? f.symbol).map fun values ↦ (minAlias f.symbol, values.map f.orient) := by
  induction objectives generalizing t with
  | nil =>
    cases h
    exact (List.append_nil _).symm
  | cons f objectives ih =>
    have hlater : ∀ g ∈ objectives, ∀ g' ∈ objectives, g'.symbol ≠ minAlias g.symbol :=
      fun g hg g' hg' ↦ hfresh g (List.mem_cons_of_mem _ hg) g' (List.mem_cons_of_mem _ hg')
    unfold orientAll at h
    rcases hvalues : t.find? f.symbol with _ | values
    · rw [hvalues] at h
      rw [ih hlater h, List.filterMap_cons_none (by rw [hvalues]; rfl)]
    · rw [hvalues] at h
      dsimp only at h
      rcases hinsert : t.insert (minAlias f.symbol) (values.map f.orient) with e | next
      · rw [hinsert] at h
        cases h
      · rw [hinsert] at h
        obtain ⟨-, -, hentries⟩ := Table.insert_eq_ok_iff.mp hinsert
        rw [ih hlater h, hentries, List.filterMap_cons_some (by rw [hvalues]; rfl),
          List.append_assoc, List.singleton_append]
        congr 2
        refine List.filterMap_congr fun g hg ↦ ?_
        have hne := hfresh f List.mem_cons_self g (List.mem_cons_of_mem _ hg)
        rw [Table.find?_of_insert hinsert, if_neg hne]

variable (p : Problem) {samples : StoredSamples} {queries : Table} {metric : Metric}

/-- What is looked up are the stored values at the indices, and then the aliases. -/
theorem entries_of_lookUp {indices : List Nat} {t : Table} (h : p.lookUp samples indices = .ok t) :
    t.columns.entries =
      (samples.values.entries.map fun stored ↦ (stored.1, valuesAt indices stored.2)) ++
        p.draft.objectives.filterMap fun f ↦ (samples.values.find? f.symbol).map fun stored ↦
          (minAlias f.symbol, (valuesAt indices stored).map f.orient) := by
  unfold lookUp at h
  dsimp only at h
  rcases hstored : Table.ofColumns (samples.values.entries.map fun stored ↦
    (stored.1, (indices.map fun index ↦ stored.2[index]?.getD notANumber).toArray)) with e | stored
  · rw [hstored] at h
    cases h
  · rw [hstored] at h
    have hentries := Table.entries_of_insertAll hstored
    rw [entries_of_orientAll (fun f hf g hg ↦ p.isSound.symbol_ne_minAlias hf hg) h, hentries]
    congr 1
    refine List.filterMap_congr fun f hf ↦ ?_
    have hfind :
        stored.find? f.symbol = (samples.values.find? f.symbol).map (valuesAt indices) := by
      rw [Table.find?, SymbolMap.find?, hentries]
      exact lookup_map (fun _ ↦ valuesAt indices) samples.values.entries f.symbol
    rw [hfind, Option.map_map]
    rfl

/-- The table has all stored symbols, and then the aliases of the objectives that are stored. -/
theorem symbols_of_lookUp {indices : List Nat} {t : Table} (h : p.lookUp samples indices = .ok t) :
    t.symbols = samples.values.keys ++
      (p.draft.objectives.filter fun f ↦ (samples.values.find? f.symbol).isSome).map fun f ↦
        minAlias f.symbol := by
  have haliases : (p.draft.objectives.filterMap fun f ↦ (samples.values.find? f.symbol).map
      fun stored ↦ (minAlias f.symbol, (valuesAt indices stored).map f.orient)).map Prod.fst =
        (p.draft.objectives.filter fun f ↦ (samples.values.find? f.symbol).isSome).map fun f ↦
          minAlias f.symbol := by
    rw [List.map_filterMap, ← List.filterMap_eq_map', List.filterMap_filter]
    refine List.filterMap_congr fun f _ ↦ ?_
    cases samples.values.find? f.symbol <;> rfl
  rw [Table.symbols, SymbolMap.keys, p.entries_of_lookUp h, List.map_append, List.map_map, haliases]
  rfl

/-- A stored symbol has its values at the indices. -/
theorem find?_of_lookUp {indices : List Nat} {t : Table} (h : p.lookUp samples indices = .ok t)
    {symbol : String} {stored : Array Float} (hfind : samples.values.find? symbol = some stored) :
    t.find? symbol = some (valuesAt indices stored) := by
  refine SymbolMap.find?_eq_some_iff.mpr ?_
  rw [p.entries_of_lookUp h, List.mem_append, List.mem_map]
  exact .inl ⟨_, SortedMap.find?_eq_some_iff.mp hfind, rfl⟩

/-- An alias has the oriented values at the indices. -/
theorem find?_minAlias_of_lookUp {indices : List Nat} {t : Table}
    (h : p.lookUp samples indices = .ok t) {f : Objective} (hf : f ∈ p.draft.objectives)
    {stored : Array Float} (hfind : samples.values.find? f.symbol = some stored) :
    t.find? (minAlias f.symbol) = some ((valuesAt indices stored).map f.orient) := by
  refine SymbolMap.find?_eq_some_iff.mpr ?_
  rw [p.entries_of_lookUp h, List.mem_append, List.mem_filterMap]
  exact .inr ⟨f, hf, by rw [hfind, Option.map_some]⟩

/-! ### Distances to the samples -/

/-- There is a coordinate for each variable that is both queried and stored. -/
theorem mem_coordinates_iff {c : Coordinate} : c ∈ p.coordinates samples queries metric ↔
    queries.find? c.symbol = some c.query ∧ samples.decisions.find? c.symbol = some c.stored ∧
      c.scale = metric.scale (p.findVariable? c.symbol) c.stored := by
  rw [coordinates, List.mem_filterMap]
  constructor
  · rintro ⟨⟨symbol, query⟩, hquery, hcoordinate⟩
    obtain ⟨stored, hstored, rfl⟩ := Option.map_eq_some_iff.mp hcoordinate
    exact ⟨SymbolMap.find?_eq_some_iff.mpr hquery, hstored, rfl⟩
  · rintro ⟨hquery, hstored, hscale⟩
    refine ⟨(c.symbol, c.query), SymbolMap.find?_eq_some_iff.mp hquery, ?_⟩
    rw [hstored, Option.map_some, ← hscale]

/-- A coordinate has as many values as there are queries and stored samples. -/
theorem size_of_mem_coordinates {c : Coordinate}
    (hc : c ∈ p.coordinates samples queries metric) :
    c.query.size = queries.rows ∧ c.stored.size = samples.count := by
  obtain ⟨hquery, hstored, -⟩ := p.mem_coordinates_iff.mp hc
  exact ⟨queries.uniform _ (SymbolMap.find?_eq_some_iff.mp hquery),
    samples.uniform _ (List.mem_append_left _ (SortedMap.find?_eq_some_iff.mp hstored))⟩

variable {hypot : Float → Float → Float}

/-- A sample that agrees with a query in all shared variables is at no distance. -/
theorem halfDistance_eq_zero (hhypot : IsLength hypot) {row i : Nat}
    (h : ∀ symbol query stored, queries.find? symbol = some query →
      samples.decisions.find? symbol = some stored →
        ∃ x y, query[row]? = some x ∧ stored[i]? = some y ∧ x.isFinite ∧ x == y) :
    halfDistance hypot (p.coordinates samples queries metric) row i == 0 := by
  refine Coordinate.halfDistance_eq_zero hhypot fun c hc ↦ ?_
  obtain ⟨hquery, hstored, hscale⟩ := p.mem_coordinates_iff.mp hc
  obtain ⟨x, y, hx, hy, hfinite, heq⟩ := h c.symbol c.query c.stored hquery hstored
  obtain ⟨hpos, hfinite'⟩ := metric.scale_pos (p.findVariable? c.symbol) c.stored
  exact Coordinate.isZero_halfDelta (hscale ▸ hpos) (hscale ▸ hfinite') hx hy hfinite heq

/-- The nearest sample is the first with the least half distance, and the distance is twice that. -/
theorem nearest_spec (hypot : Float → Float → Float) (coordinates : List Coordinate)
    (count row : Nat) :
    (∀ i < count, ¬halfDistance hypot coordinates row i < 1 / 0) ∧
        nearest hypot coordinates count row = (0, 1 / 0) ∨
      ∃ index, IsFirstLeast (halfDistance hypot coordinates row) count index ∧
        nearest hypot coordinates count row =
          (index, 2 * halfDistance hypot coordinates row index) := by
  have htwice : (2 * (1 / 0) : Float) = 1 / 0 := by
    decide +kernel
  unfold nearest
  rcases least_spec (halfDistance hypot coordinates row) count with
    ⟨hnone, hleast⟩ | ⟨index, hfirst, hleast⟩ <;> rw [hleast]
  · exact .inl ⟨hnone, congrArg (0, ·) htwice⟩
  · exact .inr ⟨index, hfirst, rfl⟩

/-- The nearest sample is one of the stored samples. -/
theorem nearest_lt_count (coordinates : List Coordinate) {count : Nat} (hcount : 0 < count)
    (row : Nat) : (nearest hypot coordinates count row).1 < count := by
  rcases nearest_spec hypot coordinates count row with ⟨-, hnearest⟩ | ⟨index, hfirst, hnearest⟩
  · rw [hnearest]
    exact hcount
  · rw [hnearest]
    exact hfirst.lt_count

/-- A sample at no distance is found at no distance, if no sample before it is. -/
theorem nearest_of_eq_zero (hhypot : IsLength hypot) {coordinates : List Coordinate}
    {count row i : Nat} (hi : i < count) (hzero : halfDistance hypot coordinates row i == 0) :
    ∃ index ≤ i, ∃ distance, nearest hypot coordinates count row = (index, distance) ∧
      distance == 0 := by
  rcases nearest_spec hypot coordinates count row with ⟨hnone, -⟩ | ⟨index, hfirst, hnearest⟩
  · exact absurd (lt_infinity_of_eq_zero hzero) (hnone i hi)
  · obtain ⟨hle, hleast⟩ := hfirst.eq_zero (fun _ ↦ Coordinate.halfDistance_nonneg hhypot) hi hzero
    have htwice : IsZero (2 * halfDistance hypot coordinates row index) :=
      .mul (by decide +kernel) (isZero_iff_beq.mpr hleast)
    exact ⟨index, hle, _, hnearest, isZero_iff_beq.mp htwice⟩

/-! ### Answers -/

/-- What the answers to queries are, if distances are put together by the function `hypot`. -/
structure Answers (p : Problem) (samples : StoredSamples) (queries : Table) (metric : Metric)
    (hypot : Float → Float → Float) (m : Matches) : Prop where
  /-- Every query has an index. -/
  length_indices : m.indices.length = queries.rows
  /-- Every query has a distance. -/
  length_distances : m.distances.length = queries.rows
  /-- There is a queried value for every query and a stored one for every sample. -/
  size_coordinates : ∀ c ∈ p.coordinates samples queries metric,
    c.query.size = queries.rows ∧ c.stored.size = samples.count
  /-- Every index is that of a sample. -/
  lt_count : ∀ index ∈ m.indices, index < samples.count
  /-- The index is that of the first of the samples with the least half distance, and the distance
  is twice that; zero and infinity if no half distance is below infinity. -/
  nearest : ∀ row < queries.rows, ∃ index distance,
    m.indices[row]? = some index ∧ m.distances[row]? = some distance ∧
      ((∀ i < samples.count,
          ¬halfDistance hypot (p.coordinates samples queries metric) row i < 1 / 0) ∧
          index = 0 ∧ distance = 1 / 0 ∨
        IsFirstLeast (halfDistance hypot (p.coordinates samples queries metric) row)
          samples.count index ∧
          distance = 2 * halfDistance hypot (p.coordinates samples queries metric) row index)
  /-- A sample that has the queried values is at distance zero, and none after it is chosen. -/
  exact : ∀ row < queries.rows, ∀ i < samples.count,
    (∀ symbol query stored, queries.find? symbol = some query →
      samples.decisions.find? symbol = some stored →
        ∃ x y, query[row]? = some x ∧ stored[i]? = some y ∧ x.isFinite ∧ x == y) →
    ∃ index ≤ i, ∃ distance, m.indices[row]? = some index ∧
      m.distances[row]? = some distance ∧ distance == 0
  /-- The columns are those of the stored values, and then the aliases of objectives among them. -/
  symbols : m.table.symbols = samples.values.keys ++
    (p.draft.objectives.filter fun f ↦ (samples.values.find? f.symbol).isSome).map fun f ↦
      minAlias f.symbol
  /-- A stored column is answered with its values at the indices. -/
  stored : ∀ (symbol : String) (values : Array Float), samples.values.find? symbol = some values →
    ∃ column : Array Float, m.table.find? symbol = some column ∧ column.size = queries.rows ∧
      ∀ row index : Nat, m.indices[row]? = some index →
        ∃ value, values[index]? = some value ∧ column[row]? = some value
  /-- The alias of an objective among them has the oriented values. -/
  oriented : ∀ f ∈ p.draft.objectives, ∀ values, samples.values.find? f.symbol = some values →
    ∃ column, m.table.find? f.symbol = some column ∧
      m.table.find? (minAlias f.symbol) = some (column.map f.orient)

/-- What it takes to be answered. -/
theorem lookUp_of_nearestSamples {m : Matches} (hsamples : p.draft.samples? = some samples)
    (h : p.nearestSamples queries metric hypot = .ok m) :
    0 < samples.count ∧
      m.indices = ((List.range queries.rows).map
        (nearest hypot (p.coordinates samples queries metric) samples.count)).map Prod.fst ∧
      m.distances = ((List.range queries.rows).map
        (nearest hypot (p.coordinates samples queries metric) samples.count)).map Prod.snd ∧
      p.lookUp samples m.indices = .ok m.table := by
  unfold nearestSamples at h
  rw [hsamples] at h
  dsimp only at h
  -- Every check before the stored values are looked up ends in an error of its own.
  split at h
  · cases h
  split at h
  · cases h
  next hcount =>
    split at h
    · cases h
    split at h
    · cases h
    split at h
    · cases h
    next htable =>
      cases h
      exact ⟨Nat.pos_of_ne_zero hcount, rfl, rfl, htable⟩

/-- Queries that are answered are answered by nearest samples, with any function for lengths. -/
theorem answers_of_nearestSamples {m : Matches} (hhypot : IsLength hypot)
    (hsamples : p.draft.samples? = some samples)
    (h : p.nearestSamples queries metric hypot = .ok m) :
    p.Answers samples queries metric hypot m := by
  obtain ⟨hcount, hindices, hdistances, htable⟩ := p.lookUp_of_nearestSamples hsamples h
  have hlength : m.indices.length = queries.rows := by
    rw [hindices, List.length_map, List.length_map, List.length_range]
  have hrow (row : Nat) (hlt : row < queries.rows) :
      m.indices[row]? =
          some (nearest hypot (p.coordinates samples queries metric) samples.count row).1 ∧
        m.distances[row]? =
          some (nearest hypot (p.coordinates samples queries metric) samples.count row).2 := by
    rw [hindices, hdistances]
    simp [hlt]
  have hbound (index : Nat) (hmem : index ∈ m.indices) : index < samples.count := by
    rw [hindices, List.map_map, List.mem_map] at hmem
    obtain ⟨row, -, rfl⟩ := hmem
    exact nearest_lt_count _ hcount row
  exact {
    length_indices := hlength
    length_distances := by
      rw [hdistances, List.length_map, List.length_map, List.length_range]
    size_coordinates := fun c hc ↦ p.size_of_mem_coordinates hc
    lt_count := hbound
    nearest := fun row hlt ↦ by
      obtain ⟨hindex, hdistance⟩ := hrow row hlt
      refine ⟨_, _, hindex, hdistance, ?_⟩
      rcases nearest_spec hypot (p.coordinates samples queries metric) samples.count row with
        ⟨hnone, hnearest⟩ | ⟨index, hfirst, hnearest⟩ <;> rw [hnearest]
      · exact .inl ⟨hnone, rfl, rfl⟩
      · exact .inr ⟨hfirst, rfl⟩
    exact := fun row hlt i hi heq ↦ by
      obtain ⟨hindex, hdistance⟩ := hrow row hlt
      obtain ⟨index, hle, distance, hnearest, hzero⟩ :=
        nearest_of_eq_zero hhypot hi (p.halfDistance_eq_zero hhypot heq)
      rw [hnearest] at hindex hdistance
      exact ⟨index, hle, distance, hindex, hdistance, hzero⟩
    symbols := p.symbols_of_lookUp htable
    stored := fun symbol values hfind ↦ by
      refine ⟨_, p.find?_of_lookUp htable hfind, (size_valuesAt _ _).trans hlength,
        fun row index hindex ↦ ?_⟩
      have hsize : values.size = samples.count :=
        samples.uniform _ (List.mem_append_right _ (SortedMap.find?_eq_some_iff.mp hfind))
      have hlt : index < values.size := hsize ▸ hbound index (List.mem_of_getElem? hindex)
      exact ⟨values[index], Array.getElem?_eq_getElem hlt,
        (getElem?_valuesAt hindex hlt).trans (Array.getElem?_eq_getElem hlt)⟩
    oriented := fun f hf values hfind ↦
      ⟨_, p.find?_of_lookUp htable hfind, p.find?_minAlias_of_lookUp htable hf hfind⟩ }

/-- Samples of which the last two are one decision. -/
def repeatedSamples : StoredSamples :=
  ⟨⟨[("x", #[0, 1, 1])], List.pairwise_singleton _ _⟩,
    ⟨[("f", #[2, 3, 4])], List.pairwise_singleton _ _⟩, false, by simp [rowCount]⟩

/-- A problem that is only known from the samples. -/
def repeatedProblem : Problem :=
  ⟨{ Draft.empty "repeated" with
      decisions := [⟨"x", "x", .scalar, none, none, none⟩]
      objectives := [⟨"f", "f", none, true, none, none⟩]
      samples? := some repeatedSamples }, by decide +kernel⟩

/-- Two queries of stored decisions. -/
def repeatedQueries : Table := ⟨⟨[("x", #[1, 0])], by decide⟩, by simp [rowCount]⟩

/-- Of two samples of the queried decision the first one answers. -/
theorem repeatedProblem_answers :
    ∃ m, IsLength hypotenuse ∧ repeatedProblem.draft.samples? = some repeatedSamples ∧
      repeatedProblem.nearestSamples repeatedQueries .normalized hypotenuse = .ok m ∧
      repeatedProblem.Answers repeatedSamples repeatedQueries .normalized hypotenuse m ∧
      m.indices = [1, 0] := by
  have hok : (repeatedProblem.nearestSamples repeatedQueries .normalized hypotenuse).toOption.map
      Matches.indices = some [1, 0] := by
    decide +kernel
  rcases hm : repeatedProblem.nearestSamples repeatedQueries .normalized hypotenuse with e | m
  · rw [hm] at hok
    cases hok
  · rw [hm] at hok
    exact ⟨m, isLength_hypotenuse, rfl, rfl,
      repeatedProblem.answers_of_nearestSamples isLength_hypotenuse rfl hm, Option.some.inj hok⟩

end Problem

end Tradeoff
