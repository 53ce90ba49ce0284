/-
This file embeds the stages of the program and `main` over the files of the working directory.
-/

import LogicRegression.Construction.ClassifyOutput
import LogicRegression.Construction.MixVerilog
import LogicRegression.Construction.Pattern
import LogicRegression.Construction.SatOpt
import LogicRegression.Construction.TimingFunc
import LogicRegression.Construction.Verilog
import LogicRegression.Construction.WriteBlif
import LogicRegression.Library.Files

namespace LogicRegression.Main

open Text Program

/-- The numbers of values that were taken from `rand()` and from the clock. -/
structure Counters where
  draws : ℕ
  readings : ℕ

/-- A run stops early at `exit(-1)`, in a loop that does not end, or where the library stops the
program: at an access outside a string and at a vector of negative size. -/
inductive Halt where
  | exit
  | endless
  | outside
  deriving DecidableEq

/-- The stages share the working directory. -/
abbrev Stage (A : Type) := Program (World Text Text Counters) Halt A

/-- Everything that a run takes from outside: the arguments, the simulators and the optimiser, the
two functions that are not in the repository, the clock, the random numbers, the rounding of doubles
and the choices of the standard library. The number of inputs is `n`, the number of outputs is `m`. -/
structure Environment (n m : ℕ) where
  circuitName : Text
  ioNames : List Text
  patternPerMin : ℤ
  dummyInfo : Text
  dummyInfoEx : Text
  decideUpLimit : (Fin m → ℕ) → (Fin m → ℕ) × List (Fin m)
  iogen : Text → Option Text
  abc : Text → Text → Option Text
  ncverilog : Text → Text → Text → Option Text × Text
  atof : Text → ℚ
  sorts : Fin m → ℕ → SatOpt.StdSort
  hashOrder : Fin m → SatOpt.HashOrder
  rand : ℕ → ℕ
  time : ℕ → ℤ
  rounding : TimingFunc.Rounding
  uninit : Fin m → ℕ → ℤ
  undefined : Fin m → ℤ
  fuel : ℕ

section Primitives

/-- `time(NULL)` gives the next reading of the clock. -/
def tick (time : ℕ → ℤ) : Stage ℤ := do
  let readings ← observe fun w => w.inner.readings
  update fun w => { w with inner := ⟨w.inner.draws, w.inner.readings + 1⟩ }
  return time readings

/-- A stage continues with the random numbers that are left. -/
def setDraws (count : ℕ) : Stage Unit :=
  update fun w => { w with inner := ⟨count, w.inner.readings⟩ }

/-- A stream opened with `ios::app` adds to the end of the file. -/
def appendFile (name text : Text) : Stage Unit := do
  let old ← readFile name
  writeFile name (old.getD [] ++ text)

/-- A tool that has no answer leaves the file as it is. -/
def writeAnswer (output : Text) : Option Text → Stage Unit
  | none => pure ()
  | some answer => writeFile output answer

/-- A tool reads one file and writes another one, or it ends without an answer. -/
def runTool (tool : Text → Option Text) (input output : Text) : Stage Unit := do
  let file ← readFile input
  writeAnswer output (tool (file.getD []))

end Primitives

variable {n m : ℕ}

/-- `BuildDummyInfo` is taken to write its two log files. -/
def buildDummyInfo (env : Environment n m) : Stage Unit := do
  writeFile (lit "beyond_DummyInfo.log") env.dummyInfo
  writeFile (lit "beyond_DummyInfo_ex.log") env.dummyInfoEx

def checkConstOutput (env : Environment n m) : Stage (Fin m → ℕ) := do
  let _ ← tick env.time
  let count ← observe fun w => w.inner.draws
  match ClassifyOutput.sampleLoop env.rand ClassifyOutput.patternNums env.fuel count
    ([] : List (Fin n → Bool)) with
  | none => stop .endless
  | some (rows, later) =>
      setDraws later
      writeFile (lit "beyond_classify_constant_in_pat.txt")
        (ClassifyOutput.constInPat env.ioNames rows)
      runTool env.iogen (lit "beyond_classify_constant_in_pat.txt")
        (lit "beyond_classify_constant_io_rel.txt")
      let ioRel ← openFile .exit (lit "beyond_classify_constant_io_rel.txt")
      return ClassifyOutput.classifyPO n ioRel

/-- `ABCOptimization` writes a script for the two files and runs it. -/
def abcOptimization (env : Environment n m) (readBlifName writeVerilogName : Text) : Stage Unit := do
  let file ← readFile readBlifName
  let script := Verilog.runScript readBlifName writeVerilogName (lines (file.getD [])).length
  writeFile (lit "beyond_run.script") script
  runTool (env.abc script) readBlifName writeVerilogName

/-- The loop of `ModifyVerilogFormat` writes the lines of a text and returns the gate count. -/
def modifyLines (writeVerilogName text : Text) : Stage ℕ :=
  if (lines text).any Verilog.isShort then do
    writeFile writeVerilogName (Verilog.modifiedPart text)
    stop .outside
  else do
    writeFile writeVerilogName (Verilog.modifyVerilogFormat text)
    return Verilog.gatecnt text

/-- `ModifyVerilogFormat` rewrites a file and returns its gate count. The file that it writes is
opened, and so emptied, before anything is read. -/
def modifyVerilogFormat (readVerilogName writeVerilogName : Text) : Stage ℕ := do
  let file ← readFile readVerilogName
  modifyLines writeVerilogName (if readVerilogName = writeVerilogName then [] else file.getD [])

section Circuit

/-- `PatternsGeneration` returns the dummy inputs and the real inputs of one output; the random
number that it draws is not used. -/
def patternsGeneration (env : Environment n m) (i : Fin m) (upLimit : ℕ) :
    Stage (List ℕ × List (Fin n)) := do
  if 0 < n then
    let _ ← tick env.time
    let log ← readFile (lit "beyond_DummyInfo.log")
    let logEx ← readFile (lit "beyond_DummyInfo_ex.log")
    let info : Pattern.Info n := Pattern.readInfo env.atof i upLimit log logEx
    let count ← observe fun w => w.inner.draws
    setDraws (count + 1)
    match Pattern.lastGeneration env.ioNames n info.piState upLimit with
    | none => stop .outside
    | some inPat =>
        writeFile (lit "beyond_in_pat.txt") inPat
        runTool env.iogen (lit "beyond_in_pat.txt") (lit "beyond_to_satOpt.txt")
        return (Pattern.dummyPI info.piState, info.realPI)
  else return ([], [])

/-- `SATOptimization` reads the relation file and writes the cubes. -/
def satOptimization (env : Environment n m) (dummyPI : List ℕ) (i : Fin m) : Stage Unit := do
  let infile ← openFile .exit (lit "beyond_to_satOpt.txt")
  if SatOpt.realPISize infile dummyPI < 0 then stop .outside
  else
    writeFile (lit "beyond_to_abcOpt.txt")
      (SatOpt.satOptimization (env.sorts i) (env.hashOrder i) infile dummyPI i)

/-- `WriteBlif` appends the table of one output. -/
def writeBlif : Stage Unit := do
  let optResult ← openFile .exit (lit "beyond_to_abcOpt.txt")
  appendFile (lit "beyond_circuit.blif") (WriteBlif.writeBlif optResult)

/-- One round of the first loop of `main` adds the real inputs of one output to the list. -/
def writeOutput (env : Environment n m) (classifyPO upLimit : Fin m → ℕ)
    (realPIToPO : List (List (Fin n))) (i : Fin m) : Stage (List (List (Fin n))) := do
  if classifyPO i = 0 then
    appendFile (lit "beyond_circuit.blif") (WriteBlif.writeBlifConstant n env.ioNames i 0)
    return realPIToPO ++ [List.finRange n]
  else if classifyPO i = 1 then
    appendFile (lit "beyond_circuit.blif") (WriteBlif.writeBlifConstant n env.ioNames i 1)
    return realPIToPO ++ [List.finRange n]
  else
    let (dummyPI, realPI) ← patternsGeneration env i (upLimit i)
    satOptimization env dummyPI i
    writeBlif
    return realPIToPO ++ [realPI]

/-- `WriteBlifHeader` starts the file anew. -/
def writeBlifHeader (env : Environment n m) : Stage Unit :=
  writeFile (lit "beyond_circuit.blif") (WriteBlif.writeBlifHeader n m env.ioNames)

/-- The first loop of `main` and the end of the file. -/
def writeOutputs (env : Environment n m) (classifyPO upLimit : Fin m → ℕ) :
    Stage (List (List (Fin n))) := do
  let realPIToPO ← (List.finRange m).foldlM (writeOutput env classifyPO upLimit) []
  appendFile (lit "beyond_circuit.blif") WriteBlif.writeBlifEnd
  return realPIToPO

end Circuit

section Fix

/-- The simulator of the testbench reads the patterns and writes its log; the shell writes its
messages. -/
def runNcverilog (env : Environment n m) : Stage Unit := do
  let testbench ← readFile (lit "beyond_fixnetwork_testbench.v")
  let circuit ← readFile (lit "beyond_before_fix_circuit.v")
  let inPat ← readFile (lit "beyond_fix_in_pat.txt")
  let answer := env.ncverilog (testbench.getD []) (circuit.getD []) (inPat.getD [])
  writeAnswer (lit "beyond_fixnetwork_verify_log.txt") answer.1
  writeFile (lit "beyond_error_before.txt") answer.2

/-- The steps of `FixNetwork` up to the comparison test one output; the limit is an `int`. -/
def findFaults (env : Environment n m) (i : Fin m) (patternUpLimit : ℤ) (realPI : List (Fin n)) :
    Stage (FixNetwork.Faults n) := do
  let count ← observe fun w => w.inner.draws
  match FixNetwork.createPattern env.fuel realPI.length 0 (realPI.length / 2) patternUpLimit realPI
    (env.uninit i) env.rand count with
  | none => stop .endless
  | some (run, later) =>
      setDraws later
      let _ ← tick env.time
      let patterns := run.final.iogenInputPatterns
      writeFile (lit "beyond_fix_in_pat.txt") (FixNetwork.fixInPat env.ioNames patterns)
      writeFile (lit "beyond_fixnetwork_testbench.v") (FixNetwork.testbench n m env.ioNames)
      runNcverilog env
      runTool env.iogen (lit "beyond_fix_in_pat.txt") (lit "beyond_fix_io_rel.txt")
      let verifyLog ← openFile .exit (lit "beyond_fixnetwork_verify_log.txt")
      let fixIoRel ← openFile .exit (lit "beyond_fix_io_rel.txt")
      return FixNetwork.compare m i patterns verifyLog fixIoRel

/-- The name of a fault file with its extension. -/
def faultFile (i b : ℕ) (extension : Text) : Text := MixVerilog.faultName i b ++ extension

/-- A list of faulty patterns that is not empty is written and optimised. -/
def writeFault (env : Environment n m) (i : Fin m) (b : ℕ) (patterns : List (Fin n → Bool))
    (blif : Text) : Stage Unit := do
  if patterns ≠ [] then
    writeFile (faultFile i b (lit ".blif")) blif
    abcOptimization env (faultFile i b (lit ".blif")) (faultFile i b (lit ".v"))

/-- `FixNetwork` returns no value; these flags tell which lists of faults are not empty. -/
def fixNetwork (env : Environment n m) (i : Fin m) (patternUpLimit : ℤ) (realPI : List (Fin n)) :
    Stage (Bool × Bool) := do
  let faults ← findFaults env i patternUpLimit realPI
  writeFault env i 0 faults.fault0Pattern
    (FixNetwork.fault0Blif env.ioNames i realPI faults.fault0Pattern)
  writeFault env i 1 faults.fault1Pattern
    (FixNetwork.fault1Blif env.ioNames i realPI faults.fault1Pattern)
  return (!faults.fault0Pattern.isEmpty, !faults.fault1Pattern.isEmpty)

/-- The second loop of `main` carries the timing information and the flags that were found. -/
structure FixState (m : ℕ) where
  timingInfo : TimingFunc.TimingInfo
  found : Fin m → Bool × Bool

/-- `main` writes the number of real inputs of an output into `timing_info` before it calls
`Timing_function`. -/
def entryInfo (realPIToPO : List (List (Fin n))) (state : FixState m) (i : Fin m) :
    TimingFunc.TimingInfo :=
  { state.timingInfo with piNum := (realPIToPO.getD i []).length }

/-- One round of the second loop of `main`: an output of the list gets its share of the time. -/
def fixOutput (env : Environment n m) (start : ℤ) (gatecnt : ℕ) (notTruthTablePO : List (Fin m))
    (realPIToPO : List (List (Fin n))) (state : FixState m) (i : Fin m) : Stage (FixState m) := do
  if i ∈ notTruthTablePO then
    let realPI := realPIToPO.getD i []
    let now ← tick env.time
    let timing := TimingFunc.timingFunction env.rounding (now - start) gatecnt
      (entryInfo realPIToPO state i) (env.undefined i)
    let _ ← tick env.time
    let flags ← fixNetwork env i (Binary.toInt timing.1) realPI
    let _ ← tick env.time
    return ⟨timing.2, Function.update state.found i flags⟩
  else return state

end Fix

/-- `MixVerilog` infers the fault flags from the directory; they are returned for the report. -/
def mixVerilog (env : Environment n m) : Stage (Fin m → Bool × Bool) := do
  let status ← observe fun w (i : Fin m) => MixVerilog.faultStatus w.files i
  let mixCircuit ← observe fun w => MixVerilog.mixCircuit w.files env.ioNames n m
  writeFile (lit "beyond_mix_circuit.v") mixCircuit
  let _ ← modifyVerilogFormat (lit "beyond_mix_circuit.v") (lit "beyond_before_flatten_circuit.v")
  writeFile (lit "beyond_mix.script") Verilog.mixScript
  runTool (env.abc Verilog.mixScript) (lit "beyond_before_flatten_circuit.v")
    (lit "beyond_after_flatten_circuit.v")
  return status

/-- The flags that the repair found, the flags that the mixing used and the mixed circuit. -/
structure Report (m : ℕ) where
  found : Fin m → Bool × Bool
  status : Fin m → Bool × Bool
  mixCircuit : Option Text

/-- `rm beyond_*` chooses the files by their names. -/
def isTemporary (name : Text) : Bool := (lit "beyond_").isPrefixOf name

/-- The stages in the order of `main`. -/
def main (env : Environment n m) : Stage (Report m) := do
  let start ← tick env.time
  buildDummyInfo env
  let classifyPO ← checkConstOutput env
  writeBlifHeader env
  let (upLimit, listed) := env.decideUpLimit classifyPO
  let _ ← tick env.time
  let notTruthTablePO := listed.insertionSort (· ≤ ·)
  let realPIToPO ← writeOutputs env classifyPO upLimit
  abcOptimization env (lit "beyond_circuit.blif") (lit "beyond_original_circuit.v")
  let _ ← tick env.time
  let gatecnt0 ← modifyVerilogFormat (lit "beyond_original_circuit.v")
    (lit "beyond_before_fix_circuit.v")
  let _ ← tick env.time
  let restPI := (notTruthTablePO.map fun i : Fin m => (realPIToPO.getD i []).length).sum
  let fixed ← (List.finRange m).foldlM
    (fixOutput env start gatecnt0 notTruthTablePO realPIToPO)
    ⟨⟨restPI, 0, env.patternPerMin⟩, fun _ => (false, false)⟩
  let _ ← tick env.time
  let status ← mixVerilog env
  let _ ← tick env.time
  let _ ← modifyVerilogFormat (lit "beyond_after_flatten_circuit.v") env.circuitName
  let _ ← tick env.time
  let mixCircuit ← readFile (lit "beyond_mix_circuit.v")
  update (World.remove isTemporary)
  return ⟨fixed.found, status, mixCircuit⟩

/-- A run starts in a directory. -/
def startIn (files : Text → Option Text) : World Text Text Counters := ⟨files, [], ⟨0, 0⟩⟩

end LogicRegression.Main
