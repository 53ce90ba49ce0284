import LogicRegression.Proof.SatOpt.PrimeCover
import LogicRegression.Proof.SatOpt.Reading

namespace LogicRegression.SatOpt

open Text Binary

/-- The rows on which the output has the truth value of the literal. -/
def agreements (rows : List (List Text)) (output column : ℕ) (value : Char) : ℕ :=
  rows.countP fun row =>
    decide (row.getD output [] = ['1']) == decide (row.getD column [] = [value])

/-- The rows on which the output differs from the truth value of the literal. -/
def differences (rows : List (List Text)) (output column : ℕ) (value : Char) : ℕ :=
  rows.countP fun row =>
    decide (row.getD output [] = ['1']) != decide (row.getD column [] = [value])

/-- A literal predicts the output badly when it differs more often than it agrees. -/
def badness (rows : List (List Text)) (output column : ℕ) (value : Char) : ℤ :=
  (differences rows output column value : ℤ) - agreements rows output column value

/-- The rows with this output and this cell. -/
def countCells (rows : List (List Text)) (output column : ℕ) (onset : Bool) (bit : Char) : ℕ :=
  rows.countP fun row =>
    decide (row.getD output [] = ['1']) = onset ∧ row.getD column [] = [bit]

/-- The inputs that are dropped are distinct inputs. -/
structure IsDummy (n : ℕ) (dummyPI : List ℕ) : Prop where
  distinct : dummyPI.Nodup
  inside : ∀ i ∈ dummyPI, i < n

theorem IsDummy.keptInputs_length {n : ℕ} {dummyPI : List ℕ} (dummy : IsDummy n dummyPI) :
    (keptInputs n dummyPI).length = n - dummyPI.length := by
  have dropped : ((List.range n).filter (· ∈ dummyPI)).Perm dummyPI := by
    apply (List.perm_ext_iff_of_nodup (List.nodup_range.filter _) dummy.distinct).mpr
    intro i
    simpa using dummy.inside i
  have split := List.length_eq_length_filter_add (l := List.range n) (fun i => decide (i ∈ dummyPI))
  rw [List.length_range, dropped.length_eq] at split
  have kept : keptInputs n dummyPI = (List.range n).filter fun i => !decide (i ∈ dummyPI) := by
    simp [keptInputs]
  rw [kept]
  omega

/-- Strings of one character each are joined place by place. -/
theorem flatMap_getElem? {items : List ℕ} {cell : ℕ → Text}
    (single : ∀ j ∈ items, (cell j).length = 1) (id : ℕ) :
    (items.flatMap cell)[id]? = items[id]?.bind fun j => (cell j)[0]? := by
  induction items generalizing id with
  | nil => simp
  | cons j items ih =>
      have first := single j (by simp)
      rw [List.flatMap_cons]
      cases id with
      | zero => simp [first]
      | succ id =>
          rw [List.getElem?_append_right (by omega), first, Nat.add_sub_cancel]
          simpa using ih (fun other listed => single other (by simp [listed])) id

section Rows

variable {n m : ℕ} {names : List Text} {rows : List (List Text)} {file : Text}
  {dummyPI : List ℕ} {outputIndex : ℕ}

theorem IsRelation.cell (relation : IsRelation n m names rows file) {row : List Text}
    (listed : row ∈ rows) {column : ℕ} (within : column < n + m) :
    row.getD column [] = ['0'] ∨ row.getD column [] = ['1'] := by
  have inRow : column < row.length := by rw [relation.size row listed]; exact within
  rw [List.getD_eq_getElem _ _ inRow]
  exact relation.bits row listed _ (List.getElem_mem inRow)

theorem keptInputs_lt {column : ℕ} (listed : column ∈ keptInputs n dummyPI) : column < n := by
  simpa using (List.mem_filter.mp listed).1

/-- The key of a row holds the cells of the kept inputs. -/
theorem readRow_getElem? (relation : IsRelation n m names rows file) {row : List Text}
    (listed : row ∈ rows) (id : ℕ) :
    (readRow n outputIndex dummyPI row).1[id]? =
      (keptInputs n dummyPI)[id]?.bind fun column => (row.getD column [])[0]? := by
  apply flatMap_getElem?
  intro column kept
  rcases relation.cell listed (Nat.lt_add_right m (keptInputs_lt kept)) with zero | one
  · rw [zero]; rfl
  · rw [one]; rfl

/-- The rows of the file become the rows of a truth table. -/
theorem readRow_shape (relation : IsRelation n m names rows file) (within : outputIndex < m) :
    ∀ row ∈ rows.map (readRow n outputIndex dummyPI),
      row.1.length = (keptInputs n dummyPI).length ∧ IsBits row.1 ∧
        (row.2 = ['0'] ∨ row.2 = ['1']) := by
  intro entry listed
  obtain ⟨row, inside, rfl⟩ := List.mem_map.mp listed
  have cells (column : ℕ) (kept : column ∈ keptInputs n dummyPI) :=
    relation.cell inside (Nat.lt_add_right m (keptInputs_lt kept))
  refine ⟨?_, fun c letter => ?_, relation.cell inside (by omega)⟩
  · change ((keptInputs n dummyPI).flatMap fun column => row.getD column []).length = _
    rw [List.length_flatMap, List.map_congr_left (g := fun _ => 1), List.map_const',
      List.sum_replicate_nat, Nat.mul_one]
    intro column kept
    rcases cells column kept with zero | one
    · rw [zero]; rfl
    · rw [one]; rfl
  · obtain ⟨column, kept, found⟩ := List.mem_flatMap.mp letter
    rcases cells column kept with zero | one
    · rw [zero] at found
      exact .inl (List.mem_singleton.mp found)
    · rw [one] at found
      exact .inr (List.mem_singleton.mp found)

/-- A counter of the source counts the rows of the file with that output and that cell. -/
theorem countRows_eq (relation : IsRelation n m names rows file) {id column : ℕ}
    (kept : (keptInputs n dummyPI)[id]? = some column) (onset : Bool) (bit : Char) :
    countRows (rows.map (readRow n outputIndex dummyPI)) id onset bit =
      countCells rows (n + outputIndex) column onset bit := by
  rw [countRows, List.countP_map]
  apply List.countP_congr
  intro row listed
  have column_lt := keptInputs_lt (List.mem_of_getElem? kept)
  have cell : (readRow n outputIndex dummyPI row).1[id]? = some bit ↔
      row.getD column [] = [bit] := by
    rw [readRow_getElem? relation listed, kept, Option.bind_some]
    rcases relation.cell listed (Nat.lt_add_right m column_lt) with zero | one
    · rw [zero]; simp
    · rw [one]; simp
  simp only [Function.comp_apply, decide_eq_true_eq, cell]
  rfl

/-- Each row with a bit in the column is counted once for the differences and agreements. -/
theorem differences_split (output : ℕ) {column : ℕ} {rows : List (List Text)}
    (bits : ∀ row ∈ rows, row.getD column [] = ['0'] ∨ row.getD column [] = ['1'])
    {value other : Char} (pair : value = '0' ∧ other = '1' ∨ value = '1' ∧ other = '0') :
    differences rows output column value =
        countCells rows output column true other + countCells rows output column false value ∧
      agreements rows output column value =
        countCells rows output column true value + countCells rows output column false other := by
  induction rows with
  | nil => exact ⟨rfl, rfl⟩
  | cons row rows ih =>
      obtain ⟨differ, agree⟩ := ih fun next listed => bits next (by simp [listed])
      simp only [differences, agreements, countCells, List.countP_cons] at differ agree ⊢
      rw [differ, agree]
      have cell := bits row (by simp)
      rcases pair with ⟨rfl, rfl⟩ | ⟨rfl, rfl⟩ <;> rcases cell with cell | cell <;>
        by_cases on : row.getD output [] = ['1'] <;> simp only [cell, on] <;> simp <;> omega

variable (outputIndex) in
/-- The score of an input is the badness of its negative literal. -/
theorem score_eq (relation : IsRelation n m names rows file) {id column : ℕ}
    (kept : (keptInputs n dummyPI)[id]? = some column) :
    badness rows (n + outputIndex) column '0' =
        score (rows.map (readRow n outputIndex dummyPI)) id ∧
      badness rows (n + outputIndex) column '1' =
        -score (rows.map (readRow n outputIndex dummyPI)) id := by
  have column_lt := keptInputs_lt (List.mem_of_getElem? kept)
  have bits (row : List Text) (listed : row ∈ rows) :=
    relation.cell listed (Nat.lt_add_right m column_lt)
  obtain ⟨differZero, agreeZero⟩ := differences_split (n + outputIndex) bits (.inl ⟨rfl, rfl⟩)
  obtain ⟨differOne, agreeOne⟩ := differences_split (n + outputIndex) bits (.inr ⟨rfl, rfl⟩)
  simp only [score, countRows_eq relation kept, badness, differZero, agreeZero, differOne, agreeOne]
  exact ⟨trivial, (neg_sub _ _).symm⟩

/-- The signed score of a place is the badness of the literal of the row there. -/
theorem badness_eq (relation : IsRelation n m names rows file) {entry : ℕ × ℤ}
    (listed : entry ∈ initialOrder (rows.map (readRow n outputIndex dummyPI))
      (keptInputs n dummyPI).length)
    {first : Text} (size : first.length = (keptInputs n dummyPI).length) (bits : IsBits first) :
    badness rows (n + outputIndex) ((keptInputs n dummyPI).getD entry.1 0)
      (first.getD entry.1 '\x00') = (negateOne first entry).2 := by
  obtain ⟨id, inside, rfl⟩ := List.mem_map.mp listed
  have within : id < (keptInputs n dummyPI).length := List.mem_range.mp inside
  have kept := List.getElem?_eq_getElem within
  have inFirst : id < first.length := size ▸ within
  obtain ⟨negative, positive⟩ := score_eq outputIndex relation kept
  rw [List.getD_eq_getElem _ _ within, List.getD_eq_getElem _ _ inFirst]
  rcases bits _ (List.getElem_mem inFirst) with zero | one
  · rw [zero, negative]
    simp [negateOne, inFirst, zero]
  · rw [one, positive]
    simp [negateOne, inFirst, one]

end Rows

section Rounds

variable {skip : Char → ℕ → Bool} {isOff : Text → Bool} {inputPat : Text} {i : ℕ}

/-- The string `dcString` of an expansion before round `i`. -/
def dcStringAt (skip : Char → ℕ → Bool) (isOff : Text → Bool) (inputPat : Text) (i : ℕ) : Text :=
  (List.range i).foldl (expandStep skip isOff inputPat) inputPat

theorem dcStringAt_succ : dcStringAt skip isOff inputPat (i + 1) =
    expandStep skip isOff inputPat (dcStringAt skip isOff inputPat i) i := by
  simp [dcStringAt, List.range_succ]

theorem expandStep_length {dcString : Text} :
    (expandStep skip isOff inputPat dcString i).length = dcString.length := by
  rw [expandStep]
  split
  · rw [List.length_set, List.length_set]
  · rw [List.length_set]

theorem dcStringAt_length : (dcStringAt skip isOff inputPat i).length = inputPat.length := by
  induction i with
  | zero => rfl
  | succ i ih => rw [dcStringAt_succ, expandStep_length, ih]

/-- A round writes at its own position only. -/
theorem expandStep_getElem? {dcString : Text} {j : ℕ} (apart : i ≠ j) :
    (expandStep skip isOff inputPat dcString i)[j]? = dcString[j]? := by
  rw [expandStep]
  split
  · rw [List.getElem?_set_ne apart, List.getElem?_set_ne apart]
  · rw [List.getElem?_set_ne apart]

/-- The positions of the later rounds still have their literals. -/
theorem dcStringAt_getElem? {j : ℕ} (later : i ≤ j) :
    (dcStringAt skip isOff inputPat i)[j]? = inputPat[j]? := by
  induction i with
  | zero => rfl
  | succ i ih => rw [dcStringAt_succ, expandStep_getElem? (by omega), ih (by omega)]

/-- A round frees its position or puts back the literal that was there. -/
theorem expandStep_dcStringAt (inside : i < inputPat.length) :
    expandStep skip isOff inputPat (dcStringAt skip isOff inputPat i) i =
      if scanFails (skip (inputPat.getD i '\x00')) isOff
        ((dcStringAt skip isOff inputPat i).set i '-') then dcStringAt skip isOff inputPat i
      else (dcStringAt skip isOff inputPat i).set i '-' := by
  have literal : (dcStringAt skip isOff inputPat i)[i]? = some (inputPat.getD i '\x00') := by
    rw [dcStringAt_getElem? le_rfl]
    simp [inside]
  have recorded : (dcStringAt skip isOff inputPat i).getD i '\x00' = inputPat.getD i '\x00' := by
    rw [List.getD_eq_getElem?_getD, literal, Option.getD_some]
  have restored : (dcStringAt skip isOff inputPat i).set i (inputPat.getD i '\x00') =
      dcStringAt skip isOff inputPat i := by
    obtain ⟨within, same⟩ := List.getElem?_eq_some_iff.mp literal
    rw [← same, List.set_getElem_self]
  rw [expandStep, recorded, List.set_set, restored]

end Rounds

section Tried

/-- The expansion of a row goes over its literals in the order that `Reorder` left behind: `cubes i`
is the cube before round `i` in the order of the inputs. Round `i` is one step of the expansion. It
finds the literal of input `tried[i]` in place, and it frees this input or keeps the cube, as the scan
of the freed cube says. -/
structure TriesInOrder (skip : Char → ℕ → Bool) (patterns : Table) (first : Text)
    (grown : Text × InputOrder) (tried : List ℕ) (cubes : ℕ → Text) : Prop where
  order : tried = grown.2.map Prod.fst
  each : tried.Perm (List.range first.length)
  start : cubes 0 = first
  literal : ∀ (i id : ℕ), tried[i]? = some id → (cubes i)[id]? = first[id]?
  step : ∀ (i id : ℕ), tried[i]? = some id →
    permuted grown.2 (cubes (i + 1)) = expandStep skip (permutedOff patterns grown.2)
      (permuted grown.2 first) (permuted grown.2 (cubes i)) i
  trial : ∀ (i id : ℕ), tried[i]? = some id →
    cubes (i + 1) = if scanFails (skip (first.getD id '\x00')) (permutedOff patterns grown.2)
      (permuted grown.2 ((cubes i).set id '-')) then cubes i else (cubes i).set id '-'
  result : grown.1 = cubes tried.length ++ ['1']

variable {skip : Char → ℕ → Bool} {n : ℕ} {patterns : Table} {inputOrder : InputOrder}
  {first : Text} (sort : StdSort)

/-- The order after a call is sorted by the scores with the signs of the row. -/
theorem reorder_sorted (size : inputOrder.length = first.length) :
    (reorder sort inputOrder first).2.Pairwise fun earlier later =>
      (negateOne first later).2 ≤ (negateOne first earlier).2 := by
  have sortedSize : (sort.run (negateOnes first inputOrder)).length = first.length := by
    rw [(sort.perm _).length_eq, negateOnes_eq_map size, List.length_map, size]
  change (negateOnes first (sort.run (negateOnes first inputOrder))).Pairwise _
  rw [negateOnes_eq_map sortedSize, List.pairwise_map]
  apply (sort.sorted (negateOnes first inputOrder)).imp
  intro earlier later notBefore
  simpa [sortFunc] using notBefore

/-- Without real inputs there is no literal to try. -/
theorem growPattern_zero :
    growPattern skip sort 0 patterns [] [] = (['1'], []) := rfl

/-- The cubes between the rounds in the order of the inputs. -/
def cubeAt (skip : Char → ℕ → Bool) (patterns : Table) (inputOrder : InputOrder) (first : Text)
    (i : ℕ) : Text :=
  orderBack inputOrder
    (dcStringAt skip (permutedOff patterns inputOrder) (permuted inputOrder first) i)

/-- The rounds over an order try its inputs one after the other. -/
theorem cubeAt_tries (order : IsOrder n inputOrder) (size : first.length = n) :
    TriesInOrder skip patterns first
      (cubeAt skip patterns inputOrder first n ++ ['1'], inputOrder) (inputOrder.map Prod.fst)
      (cubeAt skip patterns inputOrder first) := by
  let off := permutedOff patterns inputOrder
  let row := permuted inputOrder first
  let strings (i : ℕ) : Text := dcStringAt skip off row i
  have stringSize (i : ℕ) : (strings i).length = n := by
    rw [dcStringAt_length, permuted_length, order.length_eq]
  have back (i : ℕ) : permuted inputOrder (cubeAt skip patterns inputOrder first i) = strings i :=
    permuted_orderBack order (stringSize i)
  have place {i id : ℕ} (present : (inputOrder.map Prod.fst)[i]? = some id) :
      ∃ entry, inputOrder[i]? = some entry ∧ entry.1 = id := by
    rwa [List.getElem?_map, Option.map_eq_some_iff] at present
  constructor
  · rfl
  · exact size ▸ order
  · exact orderBack_permuted order size
  · intro i id present
    obtain ⟨entry, found, rfl⟩ := place present
    rw [cubeAt, orderBack_getElem? order (stringSize i) found, dcStringAt_getElem? le_rfl,
      permuted_getElem? order size found]
  · intro i id present
    rw [back, back]
    exact dcStringAt_succ
  · intro i id present
    obtain ⟨entry, found, rfl⟩ := place present
    have within : i < inputOrder.length := (List.getElem?_eq_some_iff.mp found).1
    have inside : i < row.length := by rwa [permuted_length]
    have bit : row.getD i '\x00' = first.getD entry.1 '\x00' := by
      rw [List.getD_eq_getElem?_getD, List.getD_eq_getElem?_getD, permuted_getElem? order size found]
    have freed : (cubeAt skip patterns inputOrder first i).set entry.1 '-' =
        orderBack inputOrder ((strings i).set i '-') :=
      (orderBack_set order (stringSize i) found '-').symm
    have asked : permuted inputOrder (orderBack inputOrder ((strings i).set i '-')) =
        (strings i).set i '-' :=
      permuted_orderBack order (by rw [List.length_set, stringSize])
    rw [freed, asked, cubeAt, dcStringAt_succ, expandStep_dcStringAt inside, bit,
      apply_ite (orderBack inputOrder)]
    rfl
  · rw [List.length_map, order.length_eq]

/-- The expansion of a row of any length tries its literals in the order it leaves behind. -/
theorem growPattern_tries (order : IsOrder n inputOrder) (size : first.length = n) :
    TriesInOrder skip patterns first (growPattern skip sort n patterns inputOrder first)
      ((growPattern skip sort n patterns inputOrder first).2.map Prod.fst)
      (cubeAt skip patterns (growPattern skip sort n patterns inputOrder first).2 first) := by
  by_cases positive : n = 0
  · subst positive
    obtain rfl := List.eq_nil_of_length_eq_zero order.length_eq
    obtain rfl := List.eq_nil_of_length_eq_zero size
    rw [growPattern_zero]
    exact cubeAt_tries order rfl
  · have after := reorder_order sort order size
    have string := reorder_fst sort (order.length_eq.trans size.symm)
    have tries : TriesInOrder skip patterns first _ _ _ := cubeAt_tries after size
    rw [growPattern_eq sort positive]
    have expanded : expand skip (permutedOff patterns (reorder sort inputOrder first).2)
        (reorder sort inputOrder first).1 = dcStringAt skip
          (permutedOff patterns (reorder sort inputOrder first).2)
          (permuted (reorder sort inputOrder first).2 first) n := by
      rw [string, expand, permuted_length, after.length_eq]
      rfl
    rw [expanded]
    exact tries

/-- One growth rearranges the order, also without real inputs. -/
theorem growPattern_order (skip : Char → ℕ → Bool) (order : IsOrder n inputOrder)
    (size : first.length = n) :
    (growPattern skip sort n patterns inputOrder first).2.Perm inputOrder := by
  by_cases positive : n ≠ 0
  · rw [growPattern_eq sort positive]
    exact reorder_perm sort (order.length_eq.trans size.symm)
  · simp [growPattern, positive]

/-- The order of a growth is sorted by the scores with the signs of the row. -/
theorem growPattern_sorted (skip : Char → ℕ → Bool) (order : IsOrder n inputOrder)
    (size : first.length = n) :
    (growPattern skip sort n patterns inputOrder first).2.Pairwise fun earlier later =>
      (negateOne first later).2 ≤ (negateOne first earlier).2 := by
  by_cases positive : n = 0
  · subst positive
    obtain rfl := List.eq_nil_of_length_eq_zero order.length_eq
    exact List.Pairwise.nil
  · rw [growPattern_eq sort positive]
    exact reorder_sorted sort (order.length_eq.trans size.symm)

end Tried

section Run

variable {n : ℕ} {patterns : Table} {initial : InputOrder} (sorts : ℕ → StdSort)

/-- The state of the traversal before the entry with this index. -/
def progressAt (sorts : ℕ → StdSort) (n : ℕ) (patterns : Table) (initial : InputOrder)
    (index : ℕ) : Progress :=
  (patterns.take index).foldl (minimizeStep halfSpace sorts n patterns) ⟨initial, []⟩

/-- The traversal expands this on-set row: no earlier result covers it. -/
def Expands (sorts : ℕ → StdSort) (n : ℕ) (patterns : Table) (initial : InputOrder) (index : ℕ)
    (first : Text) : Prop :=
  patterns[index]? = some (first, ['1']) ∧
    ((progressAt sorts n patterns initial index).resultPatterns.any fun rPattern =>
      alreadyCovered rPattern first) = false

/-- Whatever was expanded before, the order holds the pairs that it started with. -/
theorem progressAt_order (size : ∀ row ∈ patterns, row.1.length = n) (order : IsOrder n initial)
    (index : ℕ) : (progressAt sorts n patterns initial index).inputOrder.Perm initial := by
  let holds (_ : Table) (progress : Progress) : Prop := progress.inputOrder.Perm initial
  have start : holds [] ⟨initial, []⟩ := List.Perm.refl _
  apply Fold.foldl_prefix start
  intro done pattern progress before perm
  have listed : pattern ∈ patterns := List.mem_of_mem_take (before.subset (by simp))
  unfold minimizeStep
  split
  · split
    · exact perm
    · have grown : (growPattern halfSpace (sorts progress.resultPatterns.length) n patterns
          progress.inputOrder pattern.1).2.Perm progress.inputOrder :=
        growPattern_order _ halfSpace (order.perm perm) (size pattern listed)
      exact grown.trans perm
  · exact perm

/-- The growth of a row in the state that the traversal reaches. -/
def grownAt (sorts : ℕ → StdSort) (n : ℕ) (patterns : Table) (initial : InputOrder) (index : ℕ)
    (first : Text) : Text × InputOrder :=
  let progress := progressAt sorts n patterns initial index
  growPattern halfSpace (sorts progress.resultPatterns.length) n patterns progress.inputOrder first

end Run

/-- Each expansion on a table file tries the literals from the worst to the best predictor. -/
theorem literals_tried_worst_first (sorts : ℕ → StdSort) (hashOrder : HashOrder) {n m : ℕ}
    {names : List Text} {rows : List (List Text)} {file : Text}
    (relation : IsRelation n m names rows file) {dummyPI : List ℕ} (dummy : IsDummy n dummyPI)
    {outputIndex : ℕ} (within : outputIndex < m) :
    let realPINum := (keptInputs n dummyPI).length
    let readRows := rows.map (readRow n outputIndex dummyPI)
    let patterns := hashOrder.run (readRows.foldl insertRow [])
    let initial := initialOrder readRows realPINum
    satOptimization sorts hashOrder file dummyPI outputIndex =
        writeResult realPINum m outputIndex (keptNames names n m dummyPI)
          (progressAt sorts realPINum patterns initial patterns.length).resultPatterns ∧
      ∀ (index : ℕ) (first : Text), Expands sorts realPINum patterns initial index first →
        ∃ (tried : List ℕ) (cubes : ℕ → Text),
          TriesInOrder halfSpace patterns first
            (grownAt sorts realPINum patterns initial index first) tried cubes ∧
          tried.Pairwise fun earlier later =>
            badness rows (n + outputIndex) ((keptInputs n dummyPI).getD later 0)
                (first.getD later '\x00') ≤
              badness rows (n + outputIndex) ((keptInputs n dummyPI).getD earlier 0)
                (first.getD earlier '\x00') := by
  intro realPINum readRows patterns initial
  have isMap := (foldl_insertRow_isMapOf readRows).run hashOrder
  have table := isMap.isTable (readRow_shape relation within)
  have order : IsOrder realPINum initial := initialOrder_isOrder readRows realPINum
  constructor
  · rw [satOptimization_relation sorts hashOrder relation dummyPI within, ← dummy.keptInputs_length,
      progressAt, List.take_length]
    rfl
  · intro index first expands
    have listed := List.mem_of_getElem? expands.1
    have size := table.size _ listed
    have perm := progressAt_order sorts table.size order index
    have current := order.perm perm
    refine ⟨_, _, growPattern_tries _ current size, ?_⟩
    rw [List.pairwise_map]
    apply (growPattern_sorted _ halfSpace current size).imp_of_mem
    intro earlier later inEarlier inLater sorted
    have key (entry : ℕ × ℤ)
        (inside : entry ∈ (grownAt sorts realPINum patterns initial index first).2) :=
      badness_eq relation (((growPattern_order _ halfSpace current size).trans perm).mem_iff.mp inside)
        size (table.bits _ listed)
    exact (key later inLater).trans_le (sorted.trans_eq (key earlier inEarlier).symm)

/-- A file with two inputs, one output and three rows. -/
def sampleRows : List (List Text) :=
  [[['0'], ['1'], ['1']], [['1'], ['1'], ['1']], [['1'], ['0'], ['0']]]

def sampleFile : Text :=
  spaced (decimal 2 :: decimal 1 :: decimal 3 :: [['a'], ['b'], ['o']] ++ sampleRows.flatten)

theorem sampleFile_isRelation : IsRelation 2 1 [['a'], ['b'], ['o']] sampleRows sampleFile where
  words := words_spaced (by
    intro w listed
    fin_cases listed <;> exact ⟨by decide, by decide⟩)
  names := rfl
  size := by decide
  bits := by decide

theorem literals_tried_worst_first_sample :
    ∃ (tried : List ℕ) (cubes : ℕ → Text), tried.Perm (List.range 2) ∧ cubes 0 = ['0', '1'] ∧
      tried.Pairwise fun earlier later =>
        badness sampleRows 2 ([0, 1].getD later 0) (['0', '1'].getD later '\x00') ≤
          badness sampleRows 2 ([0, 1].getD earlier 0) (['0', '1'].getD earlier '\x00') := by
  have dummy : IsDummy 2 [] := ⟨by decide, by decide⟩
  have within : 0 < 1 := by decide
  have result := literals_tried_worst_first (fun _ => stableSort) ⟨id, fun _ => List.Perm.refl _⟩
    sampleFile_isRelation dummy within
  obtain ⟨tried, cubes, tries, sorted⟩ := result.2 0 ['0', '1'] ⟨by decide, by decide⟩
  exact ⟨tried, cubes, tries.each, tries.start, sorted⟩

end LogicRegression.SatOpt
