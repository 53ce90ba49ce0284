/-
This file states what the program assumes of the external pattern simulators.
-/

import LogicRegression.Library.Binary

namespace LogicRegression

open Text Binary

/-- One vector is written as its bits in the order of the signals. -/
def bitWords {count : ℕ} (vector : Fin count → Bool) : List Text :=
  (List.ofFn vector).map fun bit => [bitChar bit]

/-- The words of a pattern file: two counts, the input names and the rows. -/
def patternWords {n : ℕ} (ioNames : List Text) (rows : List (Fin n → Bool)) : List Text :=
  decimal n :: decimal rows.length :: ioNames.take n ++ rows.flatMap bitWords

/-- The words of a relation file: three counts, all names and the rows with the outputs. -/
def relationWords {n m : ℕ} (ioNames : List Text) (golden : (Fin n → Bool) → Fin m → Bool)
    (rows : List (Fin n → Bool)) : List Text :=
  decimal n :: decimal m :: decimal rows.length :: ioNames ++
    rows.flatMap fun row => bitWords row ++ bitWords (golden row)

/-- The names of the signals are distinct words, the inputs before the outputs. -/
structure IoNames (n m : ℕ) where
  names : List Text
  size : names.length = n + m
  words : ∀ name ∈ names, IsWord name
  distinct : names.Nodup

def IoNames.input {n m : ℕ} (io : IoNames n m) (j : Fin n) : Text :=
  io.names.get ⟨j.val, by rw [io.size]; omega⟩

def IoNames.output {n m : ℕ} (io : IoNames n m) (k : Fin m) : Text :=
  io.names.get ⟨n + k.val, by rw [io.size]; omega⟩

/-- The values of the signals when the inputs have the values of a vector. -/
def IoNames.value {n m : ℕ} (io : IoNames n m) (x : Fin n → Bool) (name : Text) : Bool :=
  if inside : io.names.idxOf name < n then x ⟨io.names.idxOf name, inside⟩ else false

/-- Distinct names give each input its own value. -/
@[simp] theorem IoNames.value_input {n m : ℕ} (io : IoNames n m) (x : Fin n → Bool) (j : Fin n) :
    io.value x (io.input j) = x j := by
  have place : io.names.idxOf (io.input j) = j.val := io.distinct.idxOf_getElem _ _
  simp [value, place]

/-- The simulator answers each row of a pattern file with the outputs of its function.
It may lay out the words as it likes, and nothing is said about other files. -/
structure Iogen {n m : ℕ} (io : IoNames n m) where
  golden : (Fin n → Bool) → Fin m → Bool
  run : Text → Text
  answers : ∀ (rows : List (Fin n → Bool)) (file : Text),
    Text.words file = patternWords io.names rows →
      Text.words (run file) = relationWords io.names golden rows

/-- The Verilog simulator answers each row of a pattern file with the outputs of the circuit. -/
structure Ncverilog {n m : ℕ} (io : IoNames n m) where
  circuit : (Fin n → Bool) → Fin m → Bool
  run : Text → Text
  answers : ∀ (rows : List (Fin n → Bool)) (file : Text),
    Text.words file = patternWords io.names rows →
      Text.words (run file) = rows.flatMap fun row => bitWords (circuit row)

/-- This tool writes the answers of the simulator; nothing is said about files that are no pattern
files or have no rows. -/
def Iogen.RunBy {n m : ℕ} {io : IoNames n m} (iogen : Iogen io) (tool : Text → Option Text) : Prop :=
  ∀ (rows : List (Fin n → Bool)) (file : Text), rows ≠ [] →
    Text.words file = patternWords io.names rows → tool file = some (iogen.run file)

/-- The tool answers each pattern file that has rows with a relation file of one function; nothing is
said about other files. -/
def Serves {n m : ℕ} (io : IoNames n m) (tool : Text → Option Text) : Prop :=
  ∃ golden : (Fin n → Bool) → Fin m → Bool, ∀ (rows : List (Fin n → Bool)) (file : Text),
    rows ≠ [] → Text.words file = patternWords io.names rows → ∃ answer, tool file = some answer ∧
      Text.words answer = relationWords io.names golden rows

end LogicRegression
