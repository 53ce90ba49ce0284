/-
This file embeds the sampling and the written files of `verify_ncverilog.cpp`.
-/

import LogicRegression.Construction.Testbench
import LogicRegression.Construction.CreatePattern

namespace LogicRegression.Verify

open Text Binary FixNetwork

/-- The macro `TEST_PATTERNS_0`. -/
def testPatterns0 : ℤ := 10000

/-- The macro `TEST_PATTERNS_1`. -/
def testPatterns1 : ℤ := 10000

/-- The macro `RANDOM_PROBABILITY_01`. -/
def randomProbability01 : ℕ := 90

variable {inputNum : ℕ}

/-- The state of the sampling: the table of the rows, the map of the keys with the row of each
key, and the number of values of `rand()` that were used. The last field lists all written rows. -/
structure Sampling (inputNum : ℕ) where
  iogenInputPatterns : List (Fin inputNum → Bool)
  ppp : List (Text × ℤ)
  count : ℕ
  written : List (ℤ × (Fin inputNum → Bool))

/-- The table has as many rows as its size says, all zero. -/
def start (inputNum patternNum : ℕ) : Sampling inputNum :=
  ⟨List.replicate patternNum fun _ => false, [], 0, []⟩

/-- `atoi` reads the argument as a `long int`, which saturates, and returns it as an `int`. -/
def atoi (count : ℕ) : ℤ := toInt (min count (2 ^ 63 - 1) : ℕ)

/-- A run stops at a table of negative size or at a row that the table does not have. -/
inductive Stop where
  | size (patternNum : ℤ)
  | row (i : ℤ)
  deriving DecidableEq

/-- One row takes a value of `rand()` for each input. -/
def drawRow (bit : ℕ → Bool) (rand : ℕ → ℕ) (count : ℕ) : Fin inputNum → Bool :=
  fun j => bit (rand (count + j))

/-- The inner loop writes row `i`; a row that the table does not have is an error. -/
def Sampling.writeRow (i : ℤ) (x : Fin inputNum → Bool) (s : Sampling inputNum) :
    Except Stop (Sampling inputNum) :=
  if 0 ≤ i ∧ i < s.iogenInputPatterns.length then
    .ok { s with
      iogenInputPatterns := s.iogenInputPatterns.set i.toNat x
      count := s.count + inputNum
      written := s.written ++ [(i, x)] }
  else .error (.row i)

/-- One generation loop from row `i` on: it stays at the row when the key is known.
The outcome is the state, or the place where the run stops. -/
def generate (bit : ℕ → Bool) (last : ℤ) (rand : ℕ → ℕ) :
    ℕ → ℤ → Sampling inputNum → Option (Except Stop (Sampling inputNum))
  | 0, _, _ => none
  | fuel + 1, i, s =>
      if i < last then
        let x := drawRow bit rand s.count
        match s.writeRow i x with
        | .error outside => some (.error outside)
        | .ok next =>
            if toStr x ∈ next.ppp.map Prod.fst then generate bit last rand fuel i next
            else generate bit last rand fuel (i + 1) { next with ppp := next.ppp ++ [(toStr x, i)] }
      else some (.ok s)

/-- A loop starts when the one before it has ended in a state. -/
def continueWith (next : Sampling inputNum → Option (Except Stop (Sampling inputNum))) :
    Option (Except Stop (Sampling inputNum)) → Option (Except Stop (Sampling inputNum))
  | some (.ok s) => next s
  | other => other

/-- The second loop makes nine tenths of the bits one. -/
def mostlyOne (value : ℕ) : Bool := !(value % 100 ≥ randomProbability01)

/-- The third loop makes nine tenths of the bits zero. -/
def mostlyZero (value : ℕ) : Bool := value % 100 ≥ randomProbability01

/-- The table and the three generation loops of `main`; the argument is the number in `argv[4]`. -/
def createPattern (count : ℕ) (rand : ℕ → ℕ) (fuel : ℕ) :
    Option (Except Stop (Sampling inputNum)) :=
  let patternNum := atoi count
  -- The constructor of the table throws when its size is negative.
  if patternNum < 0 then some (.error (.size patternNum))
  else
    let second := patternNum - testPatterns0 - testPatterns1
    let third := patternNum - testPatterns0
    continueWith (generate mostlyZero patternNum rand fuel third)
      (continueWith (generate mostlyOne third rand fuel second)
        (generate plainBit second rand fuel 0 (start inputNum patternNum.toNat)))

/-- The text of `beyond_verify_in_pat.txt`: the count is the argument as it was given, and each row
starts with the last input. -/
def verifyInPat (ioNames : List Text) (patternNumS : Text) (rows : List (Fin inputNum → Bool)) :
    Text :=
  spaced [decimal inputNum, patternNumS] ++ '\n' ::
    (spaced (ioNames.take inputNum) ++ '\n' ::
      rows.flatMap fun x => spaced (bitWords x).reverse ++ ['\n'])

/-- The text of `beyond_before_fix_testbench.v`. -/
def beforeFixTestbench (inputNum outputNum : ℕ) (ioNames : List Text) : Text :=
  Testbench.text (lit "stimulus_before") (lit "main_circuit main_1") (lit "_main")
    (lit "beyond_verify_in_pat.txt") (lit "beyond_before_fix_verify_log.txt") inputNum outputNum
    ioNames

/-- The text of `beyond_after_fix_testbench.v`. -/
def afterFixTestbench (inputNum outputNum : ℕ) (ioNames : List Text) : Text :=
  Testbench.text (lit "stimulus_after") (lit "top top_1") [] (lit "beyond_verify_in_pat.txt")
    (lit "beyond_after_fix_verify_log.txt") inputNum outputNum ioNames

end LogicRegression.Verify
