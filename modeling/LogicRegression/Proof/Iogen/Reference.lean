import LogicRegression.Construction.Iogen

namespace LogicRegression

open Text Binary

theorem bitWords_length {count : ℕ} (vector : Fin count → Bool) :
    (bitWords vector).length = count := by simp [bitWords]

theorem bitWords_get {count : ℕ} (vector : Fin count → Bool) (j : Fin count) :
    (bitWords vector).getD j.val [] = [bitChar (vector j)] := by
  simp [bitWords]

theorem bitWords_isWord {count : ℕ} (vector : Fin count → Bool) {w : Text}
    (listed : w ∈ bitWords vector) : IsWord w := by
  obtain ⟨bit, -, rfl⟩ := List.mem_map.mp listed
  cases bit
  · exact ⟨by decide, by decide⟩
  · exact ⟨by decide, by decide⟩

/-- The words of written vectors are their bits. -/
theorem words_vectors {n : ℕ} (rows : List (Fin n → Bool)) :
    words (rows.flatMap fun x => spaced (bitWords x) ++ ['\n']) = rows.flatMap bitWords := by
  have written := words_rows (fun x : Fin n → Bool => (List.ofFn x).map bitChar) rows
    fun x _ c inside => by
      obtain ⟨bit, -, rfl⟩ := List.mem_map.mp inside
      cases bit <;> decide
  have each : (bitWords : (Fin n → Bool) → List Text) =
      fun x => ((List.ofFn x).map bitChar).map fun c => [c] := by
    funext x
    rw [bitWords, List.map_map]
    rfl
  rw [each]
  exact written

/-- The words of the first line of a pattern file are its two numbers. -/
theorem words_header (first second : ℕ) :
    words (spaced [decimal first, decimal second]) = [decimal first, decimal second] := by
  apply words_spaced
  intro w inside
  fin_cases inside <;> exact decimal_isWord _

theorem IoNames.inputWords {n m : ℕ} (io : IoNames n m) : ∀ name ∈ io.names.take n, IsWord name :=
  fun name inside => io.words name (List.mem_of_mem_take inside)

/-- All words of a relation file are words. -/
theorem relationWords_isWord {n m : ℕ} (io : IoNames n m)
    (golden : (Fin n → Bool) → Fin m → Bool) (rows : List (Fin n → Bool)) {w : Text}
    (listed : w ∈ relationWords io.names golden rows) : IsWord w := by
  rw [relationWords, List.cons_append, List.cons_append, List.cons_append] at listed
  simp only [List.mem_cons, List.mem_append, List.mem_flatMap] at listed
  rcases listed with rfl | rfl | rfl | name | ⟨row, -, input | output⟩
  · exact decimal_isWord _
  · exact decimal_isWord _
  · exact decimal_isWord _
  · exact io.words w name
  · exact bitWords_isWord row input
  · exact bitWords_isWord (golden row) output

/-- The bit of row `k` at input `j` among the words of a pattern file. -/
def decodeRow {n : ℕ} (stream : Stream) (k : ℕ) : Fin n → Bool :=
  fun j => stream.getD (n * k + j.val) [] = ['1']

theorem decodeRow_flatMap {n : ℕ} (rows : List (Fin n → Bool)) :
    (List.range rows.length).map (decodeRow (rows.flatMap bitWords)) = rows := by
  induction rows with
  | nil => rfl
  | cons row rows ih =>
      have first : decodeRow ((row :: rows).flatMap bitWords) 0 = row := by
        funext j
        have value := bitWords_get row j
        rw [List.getD_eq_getElem?_getD] at value
        rw [decodeRow, List.flatMap_cons, Nat.mul_zero, Nat.zero_add,
          List.getD_eq_getElem?_getD, List.getElem?_append_left (by simp [bitWords_length]), value]
        cases bit : row j <;> simp [bitChar]
      have later (k : ℕ) : decodeRow ((row :: rows).flatMap bitWords) (k + 1) =
          (decodeRow (rows.flatMap bitWords) k : Fin n → Bool) := by
        funext j
        have skip : n * (k + 1) + j.val = (bitWords row).length + (n * k + j.val) := by
          rw [bitWords_length, Nat.mul_succ]
          omega
        rw [decodeRow, decodeRow, skip, List.flatMap_cons, List.getD_append_right _ _ _ _
          (Nat.le_add_right _ _), Nat.add_sub_cancel_left]
      rw [List.length_cons, List.range_succ_eq_map, List.map_cons, List.map_map, first]
      congr 1
      conv_rhs => rw [← ih]
      apply List.map_congr_left
      intro k _
      exact later k

/-- The rows that a pattern file asks for. -/
def requestedRows (n : ℕ) (file : Text) : List (Fin n → Bool) :=
  let stream := words file
  let count := (extractNat 0 (stream.drop 1)).1
  (List.range count).map (decodeRow (stream.drop (2 + n)))

theorem requestedRows_eq {n m : ℕ} (io : IoNames n m) {rows : List (Fin n → Bool)} {file : Text}
    (same : words file = patternWords io.names rows) : requestedRows n file = rows := by
  have inputs : (io.names.take n).length = n := by simp [io.size]
  have bits : (patternWords io.names rows).drop (2 + n) = rows.flatMap bitWords := by
    rw [patternWords, Nat.add_comm, List.cons_append, List.cons_append, List.drop_succ_cons,
      List.drop_succ_cons, List.drop_left' inputs]
  have count : (extractNat 0 ((patternWords io.names rows).drop 1)).1 = rows.length := by
    simp [patternWords]
  simp only [requestedRows, same, bits, count, decodeRow_flatMap]

/-- Each function has a simulator that answers as assumed: it writes all words of its answer on
one line. -/
def referenceIogen {n m : ℕ} (io : IoNames n m) (golden : (Fin n → Bool) → Fin m → Bool) :
    Iogen io where
  golden := golden
  run file := spaced (relationWords io.names golden (requestedRows n file))
  answers rows file same := by
    rw [requestedRows_eq io same]
    exact words_spaced fun w listed => relationWords_isWord io golden rows listed

/-- Each circuit has a Verilog simulator that answers as assumed. -/
def referenceNcverilog {n m : ℕ} (io : IoNames n m) (circuit : (Fin n → Bool) → Fin m → Bool) :
    Ncverilog io where
  circuit := circuit
  run file := spaced ((requestedRows n file).flatMap fun row => bitWords (circuit row))
  answers rows file same := by
    rw [requestedRows_eq io same]
    apply words_spaced
    intro w listed
    obtain ⟨row, -, output⟩ := List.mem_flatMap.mp listed
    exact bitWords_isWord (circuit row) output

/-- Two inputs and one output. -/
def sampleNames : IoNames 2 1 where
  names := [['a'], ['b'], ['z']]
  size := rfl
  words := by
    intro name listed
    fin_cases listed <;> exact ⟨by decide, by decide⟩
  distinct := by decide

end LogicRegression
