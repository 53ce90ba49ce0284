/-
This file embeds the pattern generator of `pattern.cpp`.
-/

import LogicRegression.Library.Binary
import LogicRegression.Library.SortedSet

namespace LogicRegression.Pattern

open Text

/-- The macro `NOT_DUMMY_UP_LIMIT`. -/
def notDummyUpLimit : ℕ := 30

/-- `toBinary` takes remainders and halves towards zero, so a sign does not show. -/
def toBinary (n : ℤ) : Text := Binary.numeral n.natAbs

/-- The access `s[index]` has no meaning outside the string. -/
def charAt (s : Text) (index : ℤ) : Option Char := if 0 ≤ index then s[index.toNat]? else none

/-- The loop over `j` writes one character for each input.
A dummy input gets `1`; the others consume the string from its end. -/
def rowFrom (s : Text) : ℤ → List Bool → Option Text
  | _, [] => some []
  | index, true :: piState => do
      let row ← rowFrom s index piState
      return '1' :: row
  | index, false :: piState => do
      let c ← charAt s index
      let row ← rowFrom s (index - 1) piState
      return c :: row

/-- One row of the whole truth table; the counter becomes an `int` in the call of `toBinary`. -/
def generationRow (upLimit : ℕ) (piState : List Bool) (i : ℕ) : Option Text :=
  rowFrom ((toBinary ((i : ℤ).bmod (2 ^ 32))).leftpad upLimit '0') ((upLimit : ℤ) - 1) piState

/-- The list `dummy_PI` collects the inputs that are still dummy. -/
def dummyPI (piState : List Bool) : List ℕ :=
  (List.range piState.length).filter fun i => piState[i]? = some true

/-- The loop over the names ends the line after the last one. -/
def nameLine (names : List Text) : Text := if names = [] then [] else spaced names ++ ['\n']

/-- The text of `beyond_in_pat.txt`; `PI_state` has one entry for each of the inputs.
With a limit of 30 or more the opened file stays empty. -/
def lastGeneration (ioNames : List Text) (inputNum : ℕ) (piState : List Bool) (upLimit : ℕ) :
    Option Text :=
  if upLimit < notDummyUpLimit then do
    let rows ← (List.range (2 ^ upLimit)).mapM (generationRow upLimit piState)
    return spaced [decimal inputNum, decimal rows.length] ++ '\n' ::
      (nameLine (ioNames.take inputNum) ++
        rows.flatMap fun row => spaced (row.map fun c => [c]) ++ ['\n'])
  else some []

section ReadInfo

variable {inputNum : ℕ}

/-- The ratios of one row: the first field is skipped, and `atof` reads a field for each input.
Only their order and their signs are used, so a rational stands for any `double` but a NaN. -/
def ratios (atof : Text → ℚ) (row : Text) (j : Fin inputNum) : ℚ :=
  atof ((getlines ',' (inputNum + 1) row (some row)).getD (j + 1) [])

/-- The row of one output comes after a line of headings and the rows of the outputs before it. -/
def infoRow (outputIndex : ℕ) (file : Text) : Text :=
  (getlines '\n' (outputIndex + 2) [] (some file)).getLastD []

/-- The inputs with a positive ratio in the row of one output; a missing file has none. -/
def positiveInputs (atof : Text → ℚ) (outputIndex : ℕ) (log : Option Text) : List (Fin inputNum) :=
  match log with
  | none => []
  | some file =>
      (List.finRange inputNum).filter fun j => 0 < ratios atof (infoRow outputIndex file) j

/-- The operator `<` of the set: a larger ratio comes first, and a larger index among equals. -/
def precedes (ratio : Fin inputNum → ℚ) (i j : Fin inputNum) : Bool :=
  if ratio i ≠ ratio j then ratio i > ratio j else i > j

/-- The state that `read_info` leaves behind: an entry of `PI_state` is true for a dummy input. -/
structure Info (inputNum : ℕ) where
  piState : List Bool
  realPI : List (Fin inputNum)

/-- The set `S` after the insertions of one row, in its order. -/
def infoSet (atof : Text → ℚ) (outputIndex : ℕ) (log : Option Text) : List (Fin inputNum) :=
  SortedSet.ofList (precedes (ratios atof (infoRow outputIndex (log.getD []))))
    (positiveInputs atof outputIndex log)

/-- The first set keeps at most `up_limit` inputs; `real_PI` is the second one, sorted. -/
def readInfo (atof : Text → ℚ) (outputIndex upLimit : ℕ) (log logEx : Option Text) :
    Info inputNum :=
  let kept := (infoSet atof outputIndex log).take upLimit
  ⟨(List.finRange inputNum).map fun j => decide (j ∉ kept),
    (infoSet atof outputIndex logEx).insertionSort (· ≤ ·)⟩

end ReadInfo

end LogicRegression.Pattern
