/-
This file embeds the repair of one output of `fixnetwork.cpp` after its patterns were created.
-/

import LogicRegression.Construction.Iogen

namespace LogicRegression.FixNetwork

open Text Binary

variable {inputNum : ℕ}

/-- The text of `beyond_fix_in_pat.txt`. -/
def fixInPat (ioNames : List Text) (patterns : List (Fin inputNum → Bool)) : Text :=
  spaced [decimal inputNum, decimal patterns.length] ++ '\n' ::
    (spaced (ioNames.take inputNum) ++ '\n' ::
      patterns.flatMap fun x => spaced (bitWords x) ++ ['\n'])

/-- The text of `beyond_fixnetwork_testbench.v`. -/
def testbench (inputNum outputNum : ℕ) (ioNames : List Text) : Text :=
  let inputs := ioNames.take inputNum
  let outputs := (ioNames.drop inputNum).take outputNum
  lit "module stimulus_fixnetwork;\n\treg " ++ List.intercalate (lit ", ") inputs ++
    lit ";\n\twire " ++ List.intercalate (lit ", ") outputs ++
    lit ";\n\treg[" ++ decimal (inputNum + outputNum - 1) ++
    lit ":0] tmp;\n\tinteger fp_r, fp_w, i, temp;\n\tmain_circuit main_1(\n" ++
    (inputs.flatMap fun name => lit "\t\t." ++ name ++ lit "(" ++ name ++ lit "),\n") ++
    List.intercalate (lit ",\n")
      (outputs.map fun name => lit "\t\t." ++ name ++ lit "_main(" ++ name ++ lit ")") ++
    lit "\n\t);\n\n\tinitial begin\n" ++
    lit "\t\tfp_r = $fopen(\"beyond_fix_in_pat.txt\", \"r\");\n" ++
    lit "\t\tfp_w = $fopen(\"beyond_fixnetwork_verify_log.txt\", \"w\");\n" ++
    lit "\t\tfor(i = 0; i < 2; i = i + 1) begin\n\t\t\ttmp = $fgetc(fp_r);\n" ++
    lit "\t\t\twhile(tmp != 10) begin\n\t\t\t\ttmp = $fgetc(fp_r);\n\t\t\tend\n\t\tend\n" ++
    lit "\t\twhile(!$feof(fp_r)) begin\n\t\t\ttemp = $fscanf(fp_r, \"" ++
    (inputs.flatMap fun _ => lit "%d ") ++ lit "\"" ++
    (inputs.flatMap fun name => lit ", " ++ name) ++
    lit ");\n\t\t\t#1;\n\t\t\t$fwrite(fp_w, \"" ++ (outputs.flatMap fun _ => lit "%d ") ++
    lit "\\n\"" ++ (outputs.flatMap fun name => lit ", " ++ name) ++
    lit ");\n\t\tend\n\t\t$fclose(fp_r);\n\t\t$fclose(fp_w);\n\tend\nendmodule"

/-- The row loops read the cells through the variable `temp`, whose last value they return. -/
def readCells (cells : ℕ) : ℕ → Text → Stream → List (List Text) × Text
  | 0, temp, _ => ([], temp)
  | count + 1, temp, stream =>
      let row := extractMany temp cells stream
      let later := readCells cells count (row.1.getLastD temp) row.2
      (row.1 :: later.1, later.2)

/-- A cell is one when it is the word `1`. -/
def bitsOf (cells : List Text) : List Bool := cells.map fun cell => cell = ['1']

/-- The outputs of the circuit from `beyond_fixnetwork_verify_log.txt`, and the variable `temp`. -/
def sisOutputPatterns (outputNum patternNum : ℕ) (verifyLog : Text) : List (List Bool) × Text :=
  let rows := readCells outputNum patternNum [] (words verifyLog)
  (rows.1.map bitsOf, rows.2)

/-- The outputs of the simulator from `beyond_fix_io_rel.txt`, after three counts and the names. -/
def iogenOutputPatterns (inputNum outputNum patternNum : ℕ) (temp fixIoRel : Text) :
    List (List Bool) :=
  let header := extractMany temp (3 + (inputNum + outputNum)) (words fixIoRel)
  let rows := readCells (inputNum + outputNum) patternNum (header.1.getLastD temp) header.2
  rows.1.map fun row => bitsOf (row.drop inputNum)

/-- The patterns at which the simulator gives one value and the circuit the other. -/
def faultPattern (value : Bool) (outputIndex : ℕ) (patterns : List (Fin inputNum → Bool))
    (iogenOutput sisOutput : List (List Bool)) : List (Fin inputNum → Bool) :=
  ((patterns.zip (iogenOutput.zip sisOutput)).filter fun entry =>
    entry.2.1.getD outputIndex false = value ∧ entry.2.2.getD outputIndex false = !value).map
      Prod.fst

/-- The two lists of faulty patterns of one output. -/
structure Faults (inputNum : ℕ) where
  fault0Pattern : List (Fin inputNum → Bool)
  fault1Pattern : List (Fin inputNum → Bool)

/-- The comparison of the two files; the simulator is at one in the first list. -/
def compare (outputNum outputIndex : ℕ) (patterns : List (Fin inputNum → Bool))
    (verifyLog fixIoRel : Text) : Faults inputNum :=
  let sis := sisOutputPatterns outputNum patterns.length verifyLog
  let iogen := iogenOutputPatterns inputNum outputNum patterns.length sis.2 fixIoRel
  ⟨faultPattern true outputIndex patterns iogen sis.1,
    faultPattern false outputIndex patterns iogen sis.1⟩

/-- A row has a dash at each input that is not real. -/
def faultRow (realPI : List (Fin inputNum)) (x : Fin inputNum → Bool) : Text :=
  (List.finRange inputNum).map fun j => if j ∈ realPI then bitChar (x j) else '-'

/-- The text of a fault file: its rows have one value. -/
def faultBlif (fault wire : Text) (value : Char) (ioNames : List Text) (outputIndex : ℕ)
    (realPI : List (Fin inputNum)) (patterns : List (Fin inputNum → Bool)) : Text :=
  let inputs := (ioNames.take inputNum).flatMap fun name => ' ' :: name
  let output := ioNames.getD (inputNum + outputIndex) [] ++ wire
  lit ".model submodule" ++ decimal outputIndex ++ fault ++ '\n' ::
    (lit ".inputs" ++ inputs ++ '\n' ::
      (lit ".outputs " ++ output ++ '\n' ::
        (lit ".names" ++ inputs ++ ' ' :: output ++ '\n' ::
          ((patterns.flatMap fun x => faultRow realPI x ++ [' ', value] ++ ['\n']) ++ lit ".end"))))

/-- The patterns of the first list are the on-set of a wire. -/
def fault0Blif (ioNames : List Text) (outputIndex : ℕ) (realPI : List (Fin inputNum))
    (patterns : List (Fin inputNum → Bool)) : Text :=
  faultBlif (lit "fault0") (lit "_wrong1") '1' ioNames outputIndex realPI patterns

/-- The patterns of the second list are the off-set of a wire. -/
def fault1Blif (ioNames : List Text) (outputIndex : ℕ) (realPI : List (Fin inputNum))
    (patterns : List (Fin inputNum → Bool)) : Text :=
  faultBlif (lit "fault1") (lit "_wrong0") '0' ioNames outputIndex realPI patterns

end LogicRegression.FixNetwork
