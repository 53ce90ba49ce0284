/-
This file embeds the writer of the repaired netlist of `mixverilog.cpp`.
-/

import LogicRegression.Library.Netlist
import LogicRegression.Library.Text

namespace LogicRegression.MixVerilog

open Text

/-- The names of the fault files of one output without their extensions. -/
def faultName (i b : ℕ) : Text := lit "beyond_PO" ++ decimal i ++ lit "fault" ++ decimal b

def outputName (ioNames : List Text) (inputNum i : ℕ) : Text := ioNames.getD (inputNum + i) []

/-- The flat table has four names for each output. -/
def wireName (ioNames : List Text) (inputNum outputNum : ℕ) : List Text :=
  (List.range outputNum).flatMap fun i =>
    [outputName ioNames inputNum i ++ lit "_main", outputName ioNames inputNum i ++ lit "_wrong1",
      outputName ioNames inputNum i ++ lit "_wrong0",
      outputName ioNames inputNum i ++ lit "_tks_new_wire"]

/-- The wires that the declaration loop lists for one output. -/
def declaredWires (wireName : List Text) (i : ℕ) : Bool × Bool → List Text
  | (false, false) => [wireName.getD (i * 4 + 0) []]
  | (true, false) => [wireName.getD (i * 4 + 1) [], wireName.getD (i * 4 + 0) []]
  | (false, true) => [wireName.getD (i * 4 + 2) [], wireName.getD (i * 4 + 0) []]
  | (true, true) => [wireName.getD (i * 4 + 3) [], wireName.getD (i * 4 + 0) [],
      wireName.getD (i * 4 + 1) [], wireName.getD (i * 4 + 2) []]

/-- The gates that the gate loop writes for one output. -/
def outputGates (wireName : List Text) (output : Text) (i : ℕ) : Bool × Bool → List (Gate Text)
  | (false, false) => [.buf output (wireName.getD (i * 4 + 0) [])]
  | (true, false) =>
      [.or output (wireName.getD (i * 4 + 0) []) (wireName.getD (i * 4 + 1) [])]
  | (false, true) =>
      [.and output (wireName.getD (i * 4 + 0) []) (wireName.getD (i * 4 + 2) [])]
  | (true, true) =>
      [.or (wireName.getD (i * 4 + 3) []) (wireName.getD (i * 4 + 0) [])
          (wireName.getD (i * 4 + 1) []),
        .and output (wireName.getD (i * 4 + 3) []) (wireName.getD (i * 4 + 2) [])]

/-- The instances that the instance loop writes for one output. -/
def submodules (ioNames : List Text) (inputNum i : ℕ) (status : Bool × Bool) :
    List (Instance Text) :=
  (if status.1 then
    [⟨lit "submodule" ++ decimal i ++ lit "fault0", ioNames.take inputNum,
      [outputName ioNames inputNum i ++ lit "_wrong1"]⟩] else []) ++
  (if status.2 then
    [⟨lit "submodule" ++ decimal i ++ lit "fault1", ioNames.take inputNum,
      [outputName ioNames inputNum i ++ lit "_wrong0"]⟩] else [])

def mainCircuit (ioNames : List Text) (inputNum outputNum : ℕ) : Instance Text :=
  ⟨lit "main_circuit", ioNames.take inputNum,
    ((ioNames.drop inputNum).take outputNum).map (· ++ lit "_main")⟩

/-- The module `top` for the fault flags of the outputs. -/
def topModule (ioNames : List Text) (inputNum outputNum : ℕ) (faultStatus : ℕ → Bool × Bool) :
    Netlist Text where
  ports := ioNames.take (inputNum + outputNum)
  inputs := ioNames.take inputNum
  outputs := (ioNames.drop inputNum).take outputNum
  wires := (List.range outputNum).flatMap fun i =>
    declaredWires (wireName ioNames inputNum outputNum) i (faultStatus i)
  gates := (List.range outputNum).flatMap fun i =>
    outputGates (wireName ioNames inputNum outputNum) (outputName ioNames inputNum i) i
      (faultStatus i)
  instances := mainCircuit ioNames inputNum outputNum ::
    (List.range outputNum).flatMap fun i => submodules ioNames inputNum i (faultStatus i)

/-- The names are separated by a comma and a blank. -/
def commas (names : List Text) : Text := List.intercalate (lit ", ") names

def gateText : Gate Text → Text
  | .buf output input => lit "buf  ( " ++ commas [output, input] ++ lit " );" ++ ['\n']
  | .or output first second => lit "or   ( " ++ commas [output, first, second] ++ lit " );" ++ ['\n']
  | .and output first second => lit "and  ( " ++ commas [output, first, second] ++ lit " );" ++ ['\n']

def instanceText (cell : Instance Text) : Text :=
  cell.module ++ lit " ( " ++ commas (cell.inputs ++ cell.outputs) ++ lit " );" ++ ['\n']

/-- The declarations, the gates and the instances are written in this order. -/
def moduleText (top : Netlist Text) : Text :=
  lit "module top (" ++ '\n' :: ('\t' :: commas top.ports ++ lit " );" ++ '\n' ::
    (lit "\tinput " ++ commas top.inputs ++ lit ";" ++ '\n' ::
      (lit "\toutput " ++ commas top.outputs ++ lit ";" ++ '\n' ::
        (lit "\twire " ++ commas top.wires ++ lit ";" ++ '\n' ::
          (top.gates.flatMap gateText ++ top.instances.flatMap instanceText ++
            lit "endmodule" ++ ['\n'])))))

/-- The files whose lines follow the module. -/
def appendedFiles (outputNum : ℕ) (faultStatus : ℕ → Bool × Bool) : List Text :=
  lit "beyond_before_fix_circuit.v" :: (List.range outputNum).flatMap fun i =>
    (if (faultStatus i).1 then [faultName i 0 ++ lit ".v"] else []) ++
      (if (faultStatus i).2 then [faultName i 1 ++ lit ".v"] else [])

/-- A copy ends each line with a line break; a missing file has no lines. -/
def copyLines (file : Option Text) : Text := (lines (file.getD [])).flatMap fun line => line ++ ['\n']

/-- The search goes on where a token was cut out. -/
def removeMain : Text → Text
  | '_' :: 'm' :: 'a' :: 'i' :: 'n' :: rest => removeMain rest
  | c :: rest => c :: removeMain rest
  | [] => []

/-- A fault flag is set when its file can be opened. -/
def faultStatus (files : Text → Option Text) (i : ℕ) : Bool × Bool :=
  ((files (faultName i 0 ++ lit ".blif")).isSome, (files (faultName i 1 ++ lit ".blif")).isSome)

/-- The text of `beyond_mix_circuit.v`; without any fault the original circuit is renamed. -/
def mixCircuit (files : Text → Option Text) (ioNames : List Text) (inputNum outputNum : ℕ) : Text :=
  if (List.range outputNum).all fun i => faultStatus files i = (false, false) then
    lit "module top (" ++ '\n' ::
      ((lines ((files (lit "beyond_original_circuit.v")).getD [])).drop 1).flatMap fun line =>
        removeMain line ++ ['\n']
  else
    moduleText (topModule ioNames inputNum outputNum (faultStatus files)) ++
      (appendedFiles outputNum (faultStatus files)).flatMap fun name => copyLines (files name)

end LogicRegression.MixVerilog
