import LogicRegression.Construction.Pattern
import LogicRegression.Proof.Iogen.Reference

namespace LogicRegression.Pattern

open Text Binary

/-- The row of number `i`: the input with `t` real inputs before it gets bit `t`. -/
def rowChars (i : ℕ) : ℕ → List Bool → Text
  | _, [] => []
  | t, true :: piState => '1' :: rowChars i t piState
  | t, false :: piState => bitChar (i.testBit t) :: rowChars i (t + 1) piState

@[simp] theorem rowChars_length (i t : ℕ) (piState : List Bool) :
    (rowChars i t piState).length = piState.length := by
  induction piState generalizing t with
  | nil => rfl
  | cons state piState ih => cases state <;> simp [rowChars, ih]

theorem rowChars_isBits (i t : ℕ) (piState : List Bool) : IsBits (rowChars i t piState) := by
  induction piState generalizing t with
  | nil => simp [rowChars]
  | cons state piState ih => cases state <;> simp [rowChars, ih, bitChar_isBit]

/-- A dummy input is at `1` in every row. -/
theorem rowChars_dummy {i t j : ℕ} {piState : List Bool} (dummy : piState[j]? = some true) :
    (rowChars i t piState)[j]? = some '1' := by
  induction piState generalizing t j with
  | nil => simp at dummy
  | cons state piState ih =>
      cases j with
      | zero =>
          obtain rfl : state = true := by simpa using dummy
          simp [rowChars]
      | succ j =>
          rw [List.getElem?_cons_succ] at dummy
          cases state <;> simpa [rowChars] using ih dummy

/-- Halving the number shifts the bits by one. -/
theorem rowChars_succ (i t : ℕ) (piState : List Bool) :
    rowChars i (t + 1) piState = rowChars (i / 2) t piState := by
  induction piState generalizing t with
  | nil => rfl
  | cons state piState ih => cases state <;> simp [rowChars, ih, Nat.testBit_succ]

/-- The string is consumed from its end and never left while the real inputs fit the limit. -/
theorem rowFrom_bits {upLimit i t : ℕ} {piState : List Bool}
    (fits : t + piState.count false ≤ upLimit) :
    rowFrom (bits upLimit i) ((upLimit : ℤ) - 1 - t) piState = some (rowChars i t piState) := by
  induction piState generalizing t with
  | nil => rfl
  | cons state piState ih =>
      cases state with
      | true => simp [rowFrom, rowChars, ih (t := t) (by simpa using fits)]
      | false =>
          have room : t + 1 + piState.count false ≤ upLimit := by
            rw [List.count_cons_self] at fits
            omega
          have read : charAt (bits upLimit i) ((upLimit : ℤ) - 1 - t) =
              some (bitChar (i.testBit t)) := by
            have place : ((upLimit : ℤ) - 1 - t).toNat = upLimit - 1 - t := by omega
            rw [charAt, if_pos (by omega), place, bits_getElem? (by omega)]
          have next := ih room
          rw [show (upLimit : ℤ) - 1 - (t + 1 : ℕ) = (upLimit : ℤ) - 1 - t - 1 by push_cast; ring]
            at next
          simp [rowFrom, rowChars, read, next]

/-- Each row is built without leaving the string. -/
theorem generationRow_eq {upLimit i : ℕ} {piState : List Bool} (small : upLimit < 30)
    (fits : piState.count false ≤ upLimit) (inside : i < 2 ^ upLimit) :
    generationRow upLimit piState i = some (rowChars i 0 piState) := by
  have bound : (i : ℤ) < 2 ^ 29 := by
    exact_mod_cast inside.trans_le (Nat.pow_le_pow_right (by decide) (by omega))
  have kept : (i : ℤ).bmod (2 ^ 32) = i :=
    Int.bmod_eq_of_le_mul_two (by omega) (by omega)
  have string : (toBinary i).leftpad upLimit '0' = bits upLimit i := padded_eq_bits inside
  rw [generationRow, kept, string]
  simpa using rowFrom_bits (t := 0) (by simpa using fits)

/-- A loop whose rounds all succeed collects their results. -/
theorem mapM_eq_some {A B : Type} {f : A → Option B} {g : A → B} {items : List A}
    (each : ∀ item ∈ items, f item = some (g item)) : items.mapM f = some (items.map g) := by
  induction items with
  | nil => rfl
  | cons item items ih =>
      rw [List.mapM_cons, each item (by simp), ih fun other inside => each other (by simp [inside])]
      rfl

/-- The generator writes one row for each number below `2 ^ upLimit`. -/
theorem lastGeneration_eq {ioNames : List Text} {inputNum upLimit : ℕ} {piState : List Bool}
    (small : upLimit < 30) (fits : piState.count false ≤ upLimit) :
    lastGeneration ioNames inputNum piState upLimit =
      some (spaced [decimal inputNum, decimal (2 ^ upLimit)] ++ '\n' ::
        (nameLine (ioNames.take inputNum) ++
          (List.range (2 ^ upLimit)).flatMap fun i =>
            spaced ((rowChars i 0 piState).map fun c => [c]) ++ ['\n'])) := by
  have limited : upLimit < notDummyUpLimit := small
  have rows : (List.range (2 ^ upLimit)).mapM (generationRow upLimit piState) =
      some ((List.range (2 ^ upLimit)).map fun i => rowChars i 0 piState) :=
    mapM_eq_some fun i inside => generationRow_eq small fits (List.mem_range.mp inside)
  rw [lastGeneration, if_pos limited, rows]
  simp [List.flatMap_map]

theorem words_nameLine {names : List Text} (all : ∀ name ∈ names, IsWord name) (rest : Text) :
    words (nameLine names ++ rest) = names ++ words rest := by
  rw [nameLine]
  split
  · next empty => rw [empty, List.nil_append, List.nil_append]
  · rw [List.append_assoc, List.singleton_append, words_append_cons _ _ (by decide),
      words_spaced all]

/-- The vector of a bit row. -/
def vectorOf {n : ℕ} (row : Text) : Fin n → Bool := fun j => row[j.val]? = some '1'

theorem ofFn_vectorOf {n : ℕ} {row : Text} (size : row.length = n) (isBits : IsBits row) :
    (List.ofFn (vectorOf row : Fin n → Bool)).map bitChar = row := by
  apply List.ext_getElem
  · simp [size]
  · intro j left right
    rcases isBits row[j] (List.getElem_mem right) with bit | bit <;>
      simp [vectorOf, bitChar, bit, right]

/-- A vector is written with the characters of its row. -/
theorem bitWords_vectorOf {n : ℕ} {row : Text} (size : row.length = n) (isBits : IsBits row) :
    bitWords (vectorOf row : Fin n → Bool) = row.map fun c => [c] := by
  conv_rhs => rw [← ofFn_vectorOf size isBits, List.map_map]
  rfl

/-- The rows of the truth table as vectors. -/
def tableRows {n : ℕ} (piState : Fin n → Bool) (upLimit : ℕ) : List (Fin n → Bool) :=
  (List.range (2 ^ upLimit)).map fun i => vectorOf (rowChars i 0 (List.ofFn piState))

@[simp] theorem tableRows_length {n : ℕ} (piState : Fin n → Bool) (upLimit : ℕ) :
    (tableRows piState upLimit).length = 2 ^ upLimit := by simp [tableRows]

/-- The generator writes the rows of the truth table as vectors. -/
theorem lastGeneration_vectors (ioNames : List Text) {n upLimit : ℕ} {piState : Fin n → Bool}
    (small : upLimit < 30) (fits : (List.ofFn piState).count false ≤ upLimit) :
    lastGeneration ioNames n (List.ofFn piState) upLimit =
      some (spaced [decimal n, decimal (2 ^ upLimit)] ++ '\n' ::
        (nameLine (ioNames.take n) ++
          (tableRows piState upLimit).flatMap fun x => spaced (bitWords x) ++ ['\n'])) := by
  rw [lastGeneration_eq small fits, tableRows, List.flatMap_map]
  congr 4
  apply List.flatMap_congr
  intro i _
  rw [bitWords_vectorOf (by simp) (rowChars_isBits i 0 _)]

/-- The file has the words of a pattern file with the rows of the truth table. -/
theorem lastGeneration_words {n m upLimit : ℕ} (io : IoNames n m) {piState : Fin n → Bool}
    (small : upLimit < 30) (fits : (List.ofFn piState).count false ≤ upLimit) :
    ∃ file, lastGeneration io.names n (List.ofFn piState) upLimit = some file ∧
      words file = patternWords io.names (tableRows piState upLimit) := by
  refine ⟨_, lastGeneration_vectors io.names small fits, ?_⟩
  rw [words_append_cons _ _ (by decide), words_nameLine io.inputWords, words_header, words_vectors,
    patternWords, tableRows_length]
  rfl

/-- Each row with `1` at the dummy inputs has a number. -/
theorem exists_rowChars {row : Text} {piState : List Bool} (isBits : IsBits row)
    (size : row.length = piState.length)
    (dummy : ∀ j : ℕ, piState[j]? = some true → row[j]? = some '1') :
    ∃ i < 2 ^ piState.count false, rowChars i 0 piState = row := by
  induction piState generalizing row with
  | nil => exact ⟨0, by decide, by rw [List.length_eq_zero_iff.mp size]; rfl⟩
  | cons state piState ih =>
      cases row with
      | nil => simp at size
      | cons c row =>
          rw [isBits_cons] at isBits
          obtain ⟨i, fits, same⟩ := ih isBits.2 (by simpa using size) fun j isDummy => by
            simpa using dummy (j + 1) (by simpa using isDummy)
          cases state with
          | true =>
              obtain rfl : c = '1' := by simpa using dummy 0 rfl
              exact ⟨i, by simpa using fits, by rw [rowChars, same]⟩
          | false =>
              obtain ⟨b, rfl⟩ := exists_bitChar isBits.1
              refine ⟨Nat.bit b i, ?_, ?_⟩
              · rw [List.count_cons_self, pow_succ, Nat.bit_val]
                cases b <;> simp <;> omega
              · rw [rowChars, rowChars_succ, Nat.bit_div_two, same, Nat.testBit_bit_zero]

/-- Each vector with `1` at the dummy inputs is a row of the table. -/
theorem mem_tableRows {n upLimit : ℕ} {piState x : Fin n → Bool}
    (fits : (List.ofFn piState).count false ≤ upLimit)
    (dummy : ∀ j, piState j = true → x j = true) : x ∈ tableRows piState upLimit := by
  have isBits : IsBits ((List.ofFn x).map bitChar) := by
    intro c listed
    obtain ⟨b, -, rfl⟩ := List.mem_map.mp listed
    exact bitChar_isBit b
  have atDummy (j : ℕ) (isDummy : (List.ofFn piState)[j]? = some true) :
      ((List.ofFn x).map bitChar)[j]? = some '1' := by
    obtain ⟨within, value⟩ := List.getElem?_eq_some_iff.mp isDummy
    rw [List.getElem_ofFn] at value
    have inRange : j < n := by simpa using within
    simp [inRange, dummy _ value, bitChar]
  obtain ⟨i, inside, same⟩ := exists_rowChars isBits (by simp) atDummy
  rw [tableRows, List.mem_map]
  refine ⟨i, List.mem_range.mpr (inside.trans_le (Nat.pow_le_pow_right (by decide) fits)), ?_⟩
  rw [same]
  funext j
  rcases value : x j <;> simp [vectorOf, value, bitChar]

/-- Each row of the table has `1` at the dummy inputs. -/
theorem dummy_of_mem_tableRows {n upLimit : ℕ} {piState x : Fin n → Bool}
    (listed : x ∈ tableRows piState upLimit) {j : Fin n} (dummy : piState j = true) :
    x j = true := by
  obtain ⟨i, -, rfl⟩ := List.mem_map.mp listed
  have one : (rowChars i 0 (List.ofFn piState))[j.val]? = some '1' :=
    rowChars_dummy (by simp [dummy])
  exact decide_eq_true one

end LogicRegression.Pattern
