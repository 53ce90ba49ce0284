import LogicRegression.Proof.SatOpt.Minimize

namespace LogicRegression.SatOpt

open Text Binary

/-- A relation file has its counts, the names of all signals and rows of bits. -/
structure IsRelation (n m : ℕ) (names : List Text) (rows : List (List Text)) (file : Text) :
    Prop where
  words : Text.words file =
    decimal n :: decimal m :: decimal rows.length :: names ++ rows.flatten
  names : names.length = n + m
  size : ∀ row ∈ rows, row.length = n + m
  bits : ∀ row ∈ rows, ∀ cell ∈ row, cell = ['0'] ∨ cell = ['1']

/-- The positions of the inputs that are kept. -/
def keptInputs (n : ℕ) (dummyPI : List ℕ) : List ℕ := (List.range n).filter (· ∉ dummyPI)

/-- The row loop reads each row of the file. -/
theorem readRows_flatten {n m : ℕ} (outputIndex : ℕ) (dummyPI : List ℕ) {rows : List (List Text)}
    (size : ∀ row ∈ rows, row.length = n + m) :
    readRows n m outputIndex dummyPI rows.length rows.flatten =
      rows.map (readRow n outputIndex dummyPI) := by
  induction rows with
  | nil => rfl
  | cons row rows ih =>
      have cells : extractMany [] (n + m) (row ++ rows.flatten) = (row, rows.flatten) := by
        rw [← size row (by simp)]
        exact extractMany_append [] row rows.flatten
      have tail := ih fun other inside => size other (by simp [inside])
      simp only [List.length_cons, List.flatten_cons, readRows, cells, tail, List.map_cons]

/-- The order of the inputs that the minimiser starts with. -/
def initialOrder (rows : List (Text × Text)) (realPINum : ℕ) : InputOrder :=
  (List.range realPINum).map fun id => (id, score rows id)

theorem initialOrder_isOrder (rows : List (Text × Text)) (realPINum : ℕ) :
    IsOrder realPINum (initialOrder rows realPINum) := by
  rw [IsOrder, initialOrder, List.map_map]
  simp [Function.comp_def]

/-- The names that are kept: those of the real inputs and of all outputs. -/
def keptNames (names : List Text) (n m : ℕ) (dummyPI : List ℕ) : List Text :=
  ((List.range (n + m)).filter (· ∉ dummyPI)).map fun i => names.getD i []

/-- On a relation file the function writes the result for the rows of the file. -/
theorem satOptimization_relation (sorts : ℕ → StdSort) (hashOrder : HashOrder) {n m : ℕ}
    {names : List Text} {rows : List (List Text)} {file : Text}
    (relation : IsRelation n m names rows file) (dummyPI : List ℕ) {outputIndex : ℕ}
    (inside : outputIndex < m) :
    satOptimization sorts hashOrder file dummyPI outputIndex =
      writeResult (n - dummyPI.length) m outputIndex (keptNames names n m dummyPI)
        (resultPatterns sorts (n - dummyPI.length)
          (hashOrder.run ((rows.map (readRow n outputIndex dummyPI)).foldl insertRow []))
          (initialOrder (rows.map (readRow n outputIndex dummyPI)) (n - dummyPI.length))) := by
  have header : extractMany [] (n + m) (names ++ rows.flatten) = (names, rows.flatten) := by
    rw [← relation.names]
    exact extractMany_append [] names rows.flatten
  simp only [satOptimization, relation.words, List.cons_append, extractNat_decimal, header,
    if_pos inside, readRows_flatten outputIndex dummyPI relation.size]
  rfl

section Table

/-- The inserted rows keep distinct keys. -/
theorem insertRow_distinct {patterns : Table} (row : Text × Text)
    (distinct : (patterns.map Prod.fst).Nodup) : ((insertRow patterns row).map Prod.fst).Nodup := by
  unfold insertRow
  split
  · exact distinct
  · next absent =>
      have fresh : row.1 ∉ patterns.map Prod.fst := by
        intro listed
        obtain ⟨entry, inside, same⟩ := List.mem_map.mp listed
        exact absent (List.lookup_isSome_iff.mpr ⟨entry, inside, by simp [same]⟩)
      rw [List.map_append, List.nodup_append]
      exact ⟨distinct, by simp, fun key inside other single => by
        obtain rfl : other = row.1 := by simpa using single
        exact fun same => fresh (same ▸ inside)⟩

theorem mem_insertRow {patterns : Table} {row entry : Text × Text}
    (listed : entry ∈ insertRow patterns row) : entry ∈ patterns ∨ entry = row := by
  unfold insertRow at listed
  split at listed
  · exact .inl listed
  · simpa using listed

/-- After the insertion the key of the row is present, and no entry is lost. -/
theorem insertRow_keys {patterns : Table} {row : Text × Text} {key : Text}
    (known : key ∈ patterns.map Prod.fst ∨ key = row.1) :
    key ∈ (insertRow patterns row).map Prod.fst := by
  unfold insertRow
  split
  · next present =>
      rcases known with listed | rfl
      · exact listed
      · obtain ⟨entry, inside, same⟩ := List.lookup_isSome_iff.mp present
        exact List.mem_map.mpr ⟨entry, inside, (by simpa using same : row.1 = entry.1).symm⟩
  · rw [List.map_append, List.mem_append]
    exact known.imp_right fun same => by simp [same]

/-- The map that the insertions of some rows leave behind. -/
structure IsMapOf (rows : List (Text × Text)) (patterns : Table) : Prop where
  distinct : (patterns.map Prod.fst).Nodup
  entries : ∀ entry ∈ patterns, entry ∈ rows
  keys : ∀ row ∈ rows, row.1 ∈ patterns.map Prod.fst

theorem foldl_insertRow_isMapOf (rows : List (Text × Text)) :
    IsMapOf rows (rows.foldl insertRow []) := by
  have start : IsMapOf [] ([] : Table) := ⟨List.nodup_nil, by simp, by simp⟩
  apply Fold.foldl_prefix start
  intro done row patterns _ before
  refine ⟨insertRow_distinct row before.distinct, fun entry listed => ?_, fun other listed => ?_⟩
  · rcases mem_insertRow listed with earlier | rfl
    · exact List.mem_append_left _ (before.entries entry earlier)
    · simp
  · apply insertRow_keys
    rcases List.mem_append.mp listed with earlier | last
    · exact .inl (before.keys other earlier)
    · exact .inr (by rw [List.mem_singleton.mp last])

/-- The iteration order of the map does not matter. -/
theorem IsMapOf.run {rows : List (Text × Text)} {patterns : Table} (isMap : IsMapOf rows patterns)
    (hashOrder : HashOrder) : IsMapOf rows (hashOrder.run patterns) := by
  have perm := hashOrder.perm patterns
  have keyPerm := perm.map Prod.fst
  exact ⟨keyPerm.nodup_iff.mpr isMap.distinct,
    fun entry listed => isMap.entries entry (perm.mem_iff.mp listed),
    fun row listed => keyPerm.mem_iff.mpr (isMap.keys row listed)⟩

/-- A map of bit rows of one length is a truth table. -/
theorem IsMapOf.isTable {rows : List (Text × Text)} {patterns : Table}
    (isMap : IsMapOf rows patterns) {n : ℕ}
    (shape : ∀ row ∈ rows, row.1.length = n ∧ IsBits row.1 ∧ (row.2 = ['0'] ∨ row.2 = ['1'])) :
    IsTable n patterns :=
  ⟨isMap.distinct, fun row inside => (shape row (isMap.entries row inside)).1,
    fun row inside => (shape row (isMap.entries row inside)).2.1,
    fun row inside => (shape row (isMap.entries row inside)).2.2⟩

/-- When equal keys have equal values the map holds every row. -/
theorem IsMapOf.mem_iff {rows : List (Text × Text)} {patterns : Table}
    (isMap : IsMapOf rows patterns)
    (consistent : ∀ first ∈ rows, ∀ second ∈ rows, first.1 = second.1 → first.2 = second.2)
    (entry : Text × Text) : entry ∈ patterns ↔ entry ∈ rows := by
  constructor
  · exact isMap.entries entry
  · intro listed
    obtain ⟨other, inside, same⟩ := List.mem_map.mp (isMap.keys entry listed)
    have value := consistent other (isMap.entries other inside) entry listed same
    have equal : other = entry := Prod.ext same value
    exact equal ▸ inside

end Table

end LogicRegression.SatOpt
