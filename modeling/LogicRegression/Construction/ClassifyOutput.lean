/-
This file embeds the sampler of constant outputs of `classifyoutput.cpp`.
-/

import LogicRegression.Construction.CreatePattern
import LogicRegression.Construction.FixNetwork

namespace LogicRegression.ClassifyOutput

open Text FixNetwork

/-- The macro `PATTERN_NUMS`. -/
def patternNums : ℕ := 200000

variable {inputNum : ℕ}

/-- One row takes a value of `rand()` for each input. -/
def sampleRow (rand : ℕ → ℕ) (count : ℕ) : Fin inputNum → Bool :=
  fun j => plainBit (rand (count + j))

/-- The generation loop draws a row again when its key is known.
The result has the rows and the number of values that were used. -/
def sampleLoop (rand : ℕ → ℕ) (patternNum : ℕ) :
    ℕ → ℕ → List (Fin inputNum → Bool) → Option (List (Fin inputNum → Bool) × ℕ)
  | 0, _, _ => none
  | fuel + 1, count, rows =>
      if rows.length < patternNum then
        let x := sampleRow rand count
        sampleLoop rand patternNum fuel (count + inputNum)
          (if toStr x ∈ rows.map toStr then rows else rows ++ [x])
      else some (rows, count)

/-- The text of `beyond_classify_constant_in_pat.txt`: each row starts with the last input. -/
def constInPat (ioNames : List Text) (rows : List (Fin inputNum → Bool)) : Text :=
  spaced [decimal inputNum, decimal patternNums] ++ '\n' ::
    (spaced (ioNames.take inputNum) ++ '\n' ::
      rows.flatMap fun x => spaced (bitWords x).reverse ++ ['\n'])

/-- An output is taken as constant when it has one value on nearly all rows. -/
def outputType (count : ℕ) : ℕ :=
  let ratio : ℚ := count / patternNums
  if count = 0 ∨ ratio < 0 + 2 / 1000 then 0
  else if count = patternNums ∨ ratio > 1 - 2 / 1000 then 1
  else 2

/-- The classification of each output from `beyond_classify_constant_io_rel.txt`.
The rows are read as in the comparison of the repair. -/
def classifyPO {outputNum : ℕ} (inputNum : ℕ) (ioRel : Text) (j : Fin outputNum) : ℕ :=
  let rows := iogenOutputPatterns inputNum outputNum patternNums [] ioRel
  outputType (rows.countP fun row => row.getD j false)

end LogicRegression.ClassifyOutput
