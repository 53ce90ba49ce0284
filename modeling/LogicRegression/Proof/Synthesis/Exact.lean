import LogicRegression.Proof.Synthesis.TruthTable

namespace LogicRegression.Synthesis

open Text Binary LogicRegression.Cube SatOpt Pattern WriteBlif

variable {n m : ℕ} {upLimit : ℕ} {real : Finset (Fin n)}

/-- The vector keeps the real inputs and sets every other input to one. -/
def dummiesAtOne (real : Finset (Fin n)) (x : Fin n → Bool) : Fin n → Bool :=
  fun j => if j ∈ real then x j else true

@[simp] theorem keyOf_dummiesAtOne (x : Fin n → Bool) :
    keyOf real (dummiesAtOne real x) = keyOf real x := by
  rw [keyOf_eq_iff]
  intro j inside
  exact if_pos inside

theorem dummiesAtOne_mem (fits : real.card ≤ upLimit) (x : Fin n → Bool) :
    dummiesAtOne real x ∈ tableRows (piStateOf real) upLimit := by
  apply mem_tableRows
  · rw [count_piStateOf]
    exact fits
  · intro j dummy
    have outside : j ∉ real := by simpa [piStateOf] using dummy
    exact if_neg outside

/-- Rows of the truth table with one key are the same row. -/
theorem eq_of_keyOf_eq {x y : Fin n → Bool} (first : x ∈ tableRows (piStateOf real) upLimit)
    (second : y ∈ tableRows (piStateOf real) upLimit) (same : keyOf real x = keyOf real y) :
    x = y := by
  funext j
  by_cases inside : j ∈ real
  · exact keyOf_eq_iff.mp same j inside
  · have dummy : piStateOf real j = true := by simp [piStateOf, inside]
    rw [dummy_of_mem_tableRows first dummy, dummy_of_mem_tableRows second dummy]

/-- The words of an answer are those of a relation file. -/
theorem isRelation_of_words (io : IoNames n m) {golden : (Fin n → Bool) → Fin m → Bool}
    {rows : List (Fin n → Bool)} {file : Text}
    (written : words file = relationWords io.names golden rows) :
    IsRelation n m io.names (rows.map fun x => bitWords x ++ bitWords (golden x)) file where
  words := by rw [written, relationWords, List.length_map, List.flatMap_def]
  names := io.size
  size := by
    intro row listed
    obtain ⟨x, -, rfl⟩ := List.mem_map.mp listed
    simp [bitWords_length]
  bits := by
    intro row listed cell inside
    obtain ⟨x, -, rfl⟩ := List.mem_map.mp listed
    rw [bitWords, bitWords, ← List.map_append, List.mem_map] at inside
    obtain ⟨bit, -, rfl⟩ := inside
    cases bit
    · exact .inl rfl
    · exact .inr rfl

/-- The rows that the minimiser reads: the key and the golden output of each row. -/
def goldenRows (real : Finset (Fin n)) (upLimit : ℕ) (value : (Fin n → Bool) → Bool) :
    List (Text × Text) :=
  (tableRows (piStateOf real) upLimit).map fun x => (keyOf real x, [bitChar (value x)])

theorem mem_goldenRows {value : (Fin n → Bool) → Bool} (fits : real.card ≤ upLimit)
    (x : Fin n → Bool) (bit : Bool) :
    (keyOf real x, [bitChar bit]) ∈ goldenRows real upLimit value ↔
      value (dummiesAtOne real x) = bit := by
  constructor
  · intro listed
    obtain ⟨y, inside, same⟩ := List.mem_map.mp listed
    rw [Prod.mk.injEq, List.singleton_inj, bitChar_inj] at same
    have row : y = dummiesAtOne real x :=
      eq_of_keyOf_eq inside (dummiesAtOne_mem fits x) (by rw [same.1, keyOf_dummiesAtOne])
    rw [← row, same.2]
  · rintro rfl
    exact List.mem_map.mpr ⟨dummiesAtOne real x, dummiesAtOne_mem fits x,
      by rw [keyOf_dummiesAtOne]⟩

/-- Equal keys have equal values, so the map loses no row. -/
theorem goldenRows_consistent {value : (Fin n → Bool) → Bool} :
    ∀ first ∈ goldenRows real upLimit value, ∀ second ∈ goldenRows real upLimit value,
      first.1 = second.1 → first.2 = second.2 := by
  intro first inFirst second inSecond same
  obtain ⟨x, xListed, rfl⟩ := List.mem_map.mp inFirst
  obtain ⟨y, yListed, rfl⟩ := List.mem_map.mp inSecond
  rw [eq_of_keyOf_eq xListed yListed same]

theorem realInputs_isWord (io : IoNames n m) (real : Finset (Fin n)) :
    ∀ name ∈ (realInputs real).map io.input, IsWord name := by
  intro name listed
  obtain ⟨j, -, rfl⟩ := List.mem_map.mp listed
  exact io.words _ (List.getElem_mem _)

/-- The names that are kept start with the real inputs. -/
theorem keptNames_eq (io : IoNames n m) (real : Finset (Fin n)) :
    keptNames io.names n m (dummyPI (List.ofFn (piStateOf real))) =
      (realInputs real).map io.input ++ (List.finRange m).map io.output := by
  have inputs : ((List.range n).filter (· ∉ dummyPI (List.ofFn (piStateOf real)))).map
      (fun i => io.names.getD i []) = (realInputs real).map io.input := by
    have columns := keptInputs_dummyPI real
    rw [keptInputs] at columns
    rw [columns, List.map_map]
    apply List.map_congr_left
    intro j _
    have inside : j.val < io.names.length := by rw [io.size]; omega
    exact (List.getElem_eq_getD _ (h := inside)).symm
  have outputs : (((List.range m).map (n + ·)).filter
      (· ∉ dummyPI (List.ofFn (piStateOf real)))).map (fun i => io.names.getD i []) =
        (List.finRange m).map io.output := by
    have all : ((List.range m).map (n + ·)).filter
        (· ∉ dummyPI (List.ofFn (piStateOf real))) = (List.range m).map (n + ·) := by
      apply List.filter_eq_self.mpr
      intro i listed
      obtain ⟨k, -, rfl⟩ := List.mem_map.mp listed
      simp [mem_dummyPI]
    rw [all, ← List.map_coe_finRange_eq_range, List.map_map, List.map_map]
    apply List.map_congr_left
    intro k _
    have inside : n + k.val < io.names.length := by rw [io.size]; omega
    exact (List.getElem_eq_getD _ (h := inside)).symm
  rw [keptNames, List.range_add, List.filter_append, List.map_append, inputs, outputs]

/-- The rows that the minimiser reads from some rows of an answer. -/
def keyRows (real : Finset (Fin n)) (value : (Fin n → Bool) → Bool) (rows : List (Fin n → Bool)) :
    List (Text × Text) := rows.map fun x => (keyOf real x, [bitChar (value x)])

theorem keyRows_shape {value : (Fin n → Bool) → Bool} {rows : List (Fin n → Bool)} :
    ∀ row ∈ keyRows real value rows,
      row.1.length = real.card ∧ IsBits row.1 ∧ (row.2 = ['0'] ∨ row.2 = ['1']) := by
  intro row listed
  obtain ⟨x, -, rfl⟩ := List.mem_map.mp listed
  refine ⟨keyOf_length real x, keyOf_isBits real x, ?_⟩
  cases value x
  · exact .inl rfl
  · exact .inr rfl

/-- On an answer the minimiser writes the result for the keys of its rows. -/
theorem satOptimization_words (sorts : ℕ → StdSort) (hashOrder : HashOrder) (io : IoNames n m)
    (po : Fin m) (real : Finset (Fin n)) {golden : (Fin n → Bool) → Fin m → Bool}
    {rows : List (Fin n → Bool)} {file : Text}
    (written : words file = relationWords io.names golden rows) :
    satOptimization sorts hashOrder file (dummyPI (List.ofFn (piStateOf real))) po =
      writeResult real.card m po ((realInputs real).map io.input ++ (List.finRange m).map io.output)
        (resultPatterns sorts real.card
          (hashOrder.run ((keyRows real (fun x => golden x po) rows).foldl insertRow []))
          (initialOrder (keyRows real (fun x => golden x po) rows) real.card)) := by
  have read : (rows.map fun x => bitWords x ++ bitWords (golden x)).map
      (readRow n po (dummyPI (List.ofFn (piStateOf real)))) =
        keyRows real (fun x => golden x po) rows := by
    rw [List.map_map]
    apply List.map_congr_left
    intro x _
    exact readRow_bitWords real x (golden x) po
  rw [satOptimization_relation sorts hashOrder (isRelation_of_words io written)
    (dummyPI (List.ofFn (piStateOf real))) po.isLt, read, dummyPI_length, keptNames_eq]

/-- The table of one output has the real inputs and its own net. -/
theorem writeBlif_cubes (io : IoNames n m) (po : Fin m) (nonempty : real.Nonempty)
    {cubes : List Text} (size : ∀ cube ∈ cubes, cube.length = real.card)
    (solid : ∀ cube ∈ cubes, ∀ c ∈ cube, isSpace c = false) :
    writeBlif (writeResult real.card m po
        ((realInputs real).map io.input ++ (List.finRange m).map io.output)
        (cubes.map (· ++ ['1']))) =
      spaced (lit ".names" :: ((realInputs real).map io.input ++ [io.output po ++ lit "_main"])) ++
        '\n' :: cubes.flatMap fun cube => cube ++ lit " 1" ++ ['\n'] := by
  have count : ((realInputs real).map io.input).length = real.card := by
    rw [List.length_map, realInputs_length]
  have named : ((realInputs real).map io.input ++ (List.finRange m).map io.output).getD
      (real.card + po) [] = io.output po := by
    rw [← count, List.getD_append_right _ _ _ _ (Nat.le_add_right _ _), Nat.add_sub_cancel_left]
    simp
  exact writeBlif_writeResult nonempty.card_pos (Nat.zero_lt_of_lt po.isLt) (List.take_left' count)
    count named (realInputs_isWord io real) (io.words _ (List.getElem_mem _)) size solid

section Golden

variable {value : (Fin n → Bool) → Bool}

/-- The map that the minimiser builds from the rows, in its iteration order. -/
def goldenMap (hashOrder : HashOrder) (real : Finset (Fin n)) (upLimit : ℕ)
    (value : (Fin n → Bool) → Bool) : Table :=
  hashOrder.run ((goldenRows real upLimit value).foldl insertRow [])

theorem goldenMap_isMapOf (hashOrder : HashOrder) :
    IsMapOf (goldenRows real upLimit value) (goldenMap hashOrder real upLimit value) :=
  (foldl_insertRow_isMapOf _).run hashOrder

/-- The order of the inputs that the minimiser starts with on these rows. -/
def goldenOrder (real : Finset (Fin n)) (upLimit : ℕ) (value : (Fin n → Bool) → Bool) :
    InputOrder := initialOrder (goldenRows real upLimit value) real.card

variable (sorts : ℕ → StdSort) (hashOrder : HashOrder)

/-- The minimiser grows some rows of the map into the list of its results. -/
theorem golden_traversed (value : (Fin n → Bool) → Bool) (small : upLimit ≤ 29) (nonempty : real.Nonempty)
    (fits : real.card ≤ upLimit) :
    ∃ grown, Traversed halfSpace sorts real.card (goldenMap hashOrder real upLimit value)
      (goldenOrder real upLimit value) (goldenMap hashOrder real upLimit value)
      (minimize halfSpace sorts real.card (goldenMap hashOrder real upLimit value)
        (goldenOrder real upLimit value)) grown :=
  minimize_traversed sorts nonempty.card_pos.ne' (by omega)
    ((goldenMap_isMapOf hashOrder).isTable keyRows_shape) (initialOrder_isOrder _ _)
    soundSkip_halfSpace

/-- Some cube covers the key of a vector exactly when the golden value is one.
A covering cube avoids the off-set, and each on-set row is covered. -/
theorem covered_iff_golden (value : (Fin n → Bool) → Bool) {sorts : ℕ → StdSort} {hashOrder : HashOrder}
    (fits : real.card ≤ upLimit) {progress : Progress} {grown : List (Text × Text)}
    (traversed : Traversed halfSpace sorts real.card (goldenMap hashOrder real upLimit value)
      (goldenOrder real upLimit value) (goldenMap hashOrder real upLimit value) progress grown)
    (x : Fin n → Bool) :
    (∃ cube ∈ grown.map Prod.snd, Covers '-' cube (keyOf real x)) ↔
      value (dummiesAtOne real x) = true := by
  have entry (bit : Bool) :
      (keyOf real x, [bitChar bit]) ∈ goldenMap hashOrder real upLimit value ↔
        value (dummiesAtOne real x) = bit :=
    ((goldenMap_isMapOf hashOrder).mem_iff goldenRows_consistent _).trans (mem_goldenRows fits x bit)
  constructor
  · intro ⟨cube, listed, covers⟩
    obtain ⟨pair, inside, rfl⟩ := List.mem_map.mp listed
    by_contra zero
    have off : OffSet (goldenMap hashOrder real upLimit value) (keyOf real x) :=
      (entry false).mpr (Bool.eq_false_iff.mpr zero)
    exact (traversed.good pair inside).avoids _ off covers
  · intro one
    obtain ⟨pair, inside, covers⟩ := traversed.complete _ ((entry true).mpr one)
    exact ⟨pair.2, List.mem_map_of_mem inside, covers⟩

/-- The result file of the minimiser for one output. -/
theorem satOptimization_golden {io : IoNames n m} (iogen : Iogen io) (po : Fin m) {inPat : Text}
    (written : words inPat = patternWords io.names (tableRows (piStateOf real) upLimit)) :
    satOptimization sorts hashOrder (iogen.run inPat) (dummyPI (List.ofFn (piStateOf real))) po =
      writeResult real.card m po
        ((realInputs real).map io.input ++ (List.finRange m).map io.output)
        (resultPatterns sorts real.card
          (goldenMap hashOrder real upLimit fun x => iogen.golden x po)
          (goldenOrder real upLimit fun x => iogen.golden x po)) :=
  satOptimization_words sorts hashOrder io po real (iogen.answers _ inPat written)

/-- The text that the two stages append for one output is read as a table over the real inputs
whose cubes cover exactly the ones of the golden function. -/
theorem readNames_golden {io : IoNames n m} (iogen : Iogen io) (po : Fin m) (small : upLimit ≤ 29)
    (nonempty : real.Nonempty) (fits : real.card ≤ upLimit) {inPat : Text}
    (written : words inPat = patternWords io.names (tableRows (piStateOf real) upLimit)) :
    ∃ cubes : List Text,
      Blif.readNames (writeBlif (satOptimization sorts hashOrder (iogen.run inPat)
        (dummyPI (List.ofFn (piStateOf real))) po)) =
          [⟨(realInputs real).map io.input, io.output po ++ lit "_main",
            cubes.map fun cube => (cube, ['1'])⟩] ∧
      ∀ x, (∃ cube ∈ cubes, Covers '-' cube (keyOf real x)) ↔
        iogen.golden (dummiesAtOne real x) po = true := by
  obtain ⟨grown, traversed⟩ := golden_traversed sorts hashOrder (fun x => iogen.golden x po)
    small nonempty fits
  refine ⟨grown.map Prod.snd, ?_, covered_iff_golden (fun x => iogen.golden x po) fits traversed⟩
  have results : resultPatterns sorts real.card
      (goldenMap hashOrder real upLimit fun x => iogen.golden x po)
      (goldenOrder real upLimit fun x => iogen.golden x po) =
        (grown.map Prod.snd).map (· ++ ['1']) := by
    rw [resultPatterns, traversed.results, List.map_map]
    rfl
  rw [satOptimization_golden sorts hashOrder iogen po written, results,
    writeBlif_cubes io po nonempty (fun cube listed => (traversed.cube_solid listed).1)
      fun cube listed c inside => ((traversed.cube_solid listed).2 c inside).1]
  have stop : ((lines []).map words).head?.all Blif.isDirective := rfl
  have wire : IsWord (io.output po ++ lit "_main") :=
    (io.words _ (List.getElem_mem _)).append (by decide)
  have table := Blif.readNames_table (realInputs_isWord io real) wire
    (show isSpace '1' = false by decide) (by decide)
    (fun cube listed c inside => ((traversed.cube_solid listed).2 c inside).1)
    (fun cube listed dot => ((traversed.cube_solid listed).2 '.' dot).2 rfl) stop
  rw [List.append_nil] at table
  exact table

end Golden

/-- The table of each output computes the golden function with the dummy inputs at one. -/
theorem truthTable_exact (io : IoNames n m) (iogen : Iogen io) (sorts : ℕ → StdSort)
    (hashOrder : HashOrder) (po : Fin m) (upLimit : ℕ) (small : upLimit ≤ 29) (real : Finset (Fin n))
    (nonempty : real.Nonempty) (fits : real.card ≤ upLimit) :
    ∃ inPat table,
      lastGeneration io.names n (List.ofFn (piStateOf real)) upLimit = some inPat ∧
      Blif.readNames (writeBlif (satOptimization sorts hashOrder (iogen.run inPat)
        (dummyPI (List.ofFn (piStateOf real))) po)) = [table] ∧
      table.output = io.output po ++ lit "_main" ∧
      ∀ x, table.eval (io.value x) = iogen.golden (fun j => if j ∈ real then x j else true) po := by
  have realFits : (List.ofFn (piStateOf real)).count false ≤ upLimit := by
    rw [count_piStateOf]
    exact fits
  obtain ⟨inPat, generated, written⟩ := lastGeneration_words io (by omega) realFits
  obtain ⟨cubes, read, covers⟩ := readNames_golden sorts hashOrder iogen po small nonempty fits
    written
  refine ⟨inPat, _, generated, read, rfl, fun x => ?_⟩
  have inputs : ((realInputs real).map io.input).map (fun input => bitChar (io.value x input)) =
      keyOf real x := by
    rw [List.map_map, keyOf]
    apply List.map_congr_left
    intro j _
    exact congrArg bitChar (io.value_input x j)
  rw [Blif.Names.eval_onset (by simp), Bool.eq_iff_iff, List.any_map, List.any_eq_true]
  simp only [Function.comp_apply, Blif.Names.applies, inputs, decide_eq_true_eq]
  exact covers x

/-- One input and one output. -/
def sampleNames : IoNames 1 1 where
  names := [['a'], ['z']]
  size := rfl
  words := by
    intro name listed
    fin_cases listed
    · exact ⟨by decide, by decide⟩
    · exact ⟨by decide, by decide⟩
  distinct := by decide

/-- The identity is one iteration order. -/
def identityOrder : HashOrder := ⟨id, fun table => List.Perm.refl table⟩

/-- Three inputs and two outputs. -/
def tableNames : IoNames 3 2 where
  names := [['a'], ['b'], ['c'], ['y'], ['z']]
  size := rfl
  words := by
    intro name listed
    fin_cases listed <;> exact ⟨by decide, by decide⟩
  distinct := by decide

/-- The outputs are the conjunction and the parity of the inputs. -/
def tableGolden (x : Fin 3 → Bool) (k : Fin 2) : Bool :=
  if k.val = 0 then (List.ofFn x).all id else (List.ofFn x).foldl xor false

/-- The second input is a dummy. -/
def tableReal : Finset (Fin 3) := Finset.univ.filter fun j => j.val ≠ 1

theorem truthTable_exact_sample :
    ∃ inPat table,
      lastGeneration tableNames.names 3 (List.ofFn (piStateOf tableReal)) 3 = some inPat ∧
      Blif.readNames (writeBlif (satOptimization (fun _ => stableSort) identityOrder
        ((referenceIogen tableNames tableGolden).run inPat)
        (dummyPI (List.ofFn (piStateOf tableReal))) 1)) = [table] ∧
      table.output = lit "z_main" ∧
      ∀ x : Fin 3 → Bool, table.eval (tableNames.value x) = !(x 0 ^^ x 2) := by
  have nonempty : tableReal.Nonempty := ⟨0, by decide⟩
  obtain ⟨inPat, table, generated, read, output, exact⟩ := truthTable_exact tableNames
    (referenceIogen tableNames tableGolden) (fun _ => stableSort) identityOrder 1 3 (by decide)
    tableReal nonempty (by decide)
  refine ⟨inPat, table, generated, read, output, fun x => ?_⟩
  rw [exact x]
  simp [referenceIogen, tableGolden, tableReal]

end LogicRegression.Synthesis
