/-
This file embeds the BLIF writers of `writeblif.cpp`.
-/

import LogicRegression.Library.Text

namespace LogicRegression.WriteBlif

open Text

/-- The text that starts `beyond_circuit.blif`. -/
def writeBlifHeader (inputNum outputNum : ℕ) (ioNames : List Text) : Text :=
  lit ".model main_circuit" ++ '\n' ::
    (lit ".inputs" ++ ((ioNames.take inputNum).flatMap fun name => ' ' :: name) ++ '\n' ::
      (lit ".outputs" ++
        (((ioNames.drop inputNum).take outputNum).flatMap fun name => ' ' :: name ++ lit "_main") ++
          ['\n']))

def writeBlifEnd : Text := lit ".end" ++ ['\n']

/-- A constant output is a table without inputs. -/
def writeBlifConstant (inputNum : ℕ) (ioNames : List Text) (outputIndex constant01 : ℕ) : Text :=
  lit ".names " ++ ioNames.getD (inputNum + outputIndex) [] ++ lit "_main" ++ '\n' ::
    (decimal constant01 ++ ['\n'])

/-- The row loop copies the inputs of each row with value `1`. -/
def writeRows (inputNumSat outputNumSat : ℕ) : ℕ → Stream → Text
  | 0, _ => []
  | count + 1, stream =>
      let patterns := extractFresh (inputNumSat + outputNumSat) stream
      (if patterns.1.getD inputNumSat [] = ['1'] then
        (patterns.1.take inputNumSat).flatten ++ lit " 1" ++ ['\n'] else []) ++
        writeRows inputNumSat outputNumSat count patterns.2

/-- The text that `WriteBlif` appends for the result file of the minimiser. -/
def writeBlif (optResult : Text) : Text :=
  let inputs := extractNat 0 (words optResult)
  let outputs := extractNat 0 inputs.2
  let patternNum := extractNat 0 outputs.2
  let names := extractMany [] (inputs.1 + outputs.1) patternNum.2
  lit ".names" ++
    (names.1.mapIdx fun i temp => ' ' :: temp ++ if i = inputs.1 then lit "_main" else []).flatten ++
    '\n' :: writeRows inputs.1 outputs.1 patternNum.1 names.2

end LogicRegression.WriteBlif
