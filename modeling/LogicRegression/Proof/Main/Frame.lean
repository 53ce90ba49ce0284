import LogicRegression.Proof.Main.Independence
import LogicRegression.Proof.Main.Phases
import LogicRegression.Proof.Pattern.ReadInfo

namespace LogicRegression.Main

open Text Program

variable {n m : ℕ}

/-- The files that `rm beyond_*` removes. -/
def temporaries : Set Text := { name | isTemporary name = true }

theorem temporary_mem {name : Text} (temporary : isTemporary name = true) : name ∈ temporaries :=
  temporary

theorem faultFile_temporary (i b : ℕ) (extension : Text) :
    faultFile i b extension ∈ temporaries := by
  change isTemporary _ = true
  rw [isTemporary, faultFile, MixVerilog.faultName, List.isPrefixOf_iff_prefix]
  exact ⟨lit "PO" ++ decimal i ++ lit "fault" ++ decimal b ++ extension, by simp [lit]⟩

/-- The files that each round of the repair writes anew. -/
def repairNames : List Text :=
  [lit "beyond_fix_in_pat.txt", lit "beyond_fixnetwork_testbench.v",
    lit "beyond_fixnetwork_verify_log.txt", lit "beyond_error_before.txt",
    lit "beyond_fix_io_rel.txt", lit "beyond_run.script"]

/-- The files that the repair of one output writes. -/
def repairFiles (i : ℕ) : Set Text :=
  { name | name ∈ repairNames ∨ ∃ b extension, name = faultFile i b extension }

theorem repairNames_subset (i : ℕ) {name : Text} (listed : name ∈ repairNames) :
    name ∈ repairFiles i := .inl listed

theorem faultFile_repairFiles (i b : ℕ) (extension : Text) :
    faultFile i b extension ∈ repairFiles i := .inr ⟨b, extension, rfl⟩

theorem repairFiles_temporary (i : ℕ) : repairFiles i ⊆ temporaries := by
  rintro name (listed | ⟨b, extension, rfl⟩)
  · have all : ∀ name ∈ repairNames, isTemporary name = true := by decide
    exact all name listed
  · exact faultFile_temporary i b extension

/-- A stage that changes temporary files only, whether it ends or stops early. -/
abbrev Bounded {A : Type} (stage : Stage A) : Prop := Frame temporaries stage

/-- A stage that never stops early. -/
abbrev Total {A : Type} (stage : Stage A) : Prop :=
  Returns (fun _ => True) stage fun _ _ => True

section Stopped

/-- The files that `iogen` is asked about and the files of its answers. -/
def iogenAsked : List (Text × Text) :=
  [(lit "beyond_classify_constant_in_pat.txt", lit "beyond_classify_constant_io_rel.txt"),
    (lit "beyond_in_pat.txt", lit "beyond_to_satOpt.txt"),
    (lit "beyond_fix_in_pat.txt", lit "beyond_fix_io_rel.txt")]

/-- A simulator has no answer to what it was asked, and there is no file of an earlier answer. -/
inductive Unanswered (env : Environment n m) (files : Text → Option Text) : Prop
  | iogen {input output request : Text} (listed : (input, output) ∈ iogenAsked)
      (asked : files input = some request) (silent : env.iogen request = none)
      (missing : files output = none) : Unanswered env files
  | ncverilog {inPat : Text} (asked : files (lit "beyond_fix_in_pat.txt") = some inPat)
      (silent : (env.ncverilog (FixNetwork.testbench n m env.ioNames)
        ((files (lit "beyond_before_fix_circuit.v")).getD []) inPat).1 = none)
      (missing : files (lit "beyond_fixnetwork_verify_log.txt") = none) : Unanswered env files

/-- In each run with enough room a sampling loop never ends: the one of the constant outputs, or a
random loop in a call of `CreatePattern`. -/
inductive Unending (env : Environment n m) (files : Text → Option Text) : Prop
  | classification : (∀ fuel, ClassifyOutput.sampleLoop env.rand ClassifyOutput.patternNums fuel 0
      ([] : List (Fin n → Bool)) = none) → Unending env files
  | patterns {call : Call n m} (called : Called env files call) (unending : call.Unending env) :
      Unending env files

/-- The files that are rewritten line by line and the files to which they are written. -/
def formattedFiles (env : Environment n m) : List (Text × Text) :=
  [(lit "beyond_original_circuit.v", lit "beyond_before_fix_circuit.v"),
    (lit "beyond_mix_circuit.v", lit "beyond_before_flatten_circuit.v"),
    (lit "beyond_after_flatten_circuit.v", env.circuitName)]

/-- A file is written up to a line on which the library stops the program. -/
def Broken (source target : Text) (files : Text → Option Text) : Prop :=
  ∃ text, files source = some text ∧ ¬ Verilog.NoShort text ∧
    files target = some (Verilog.modifiedPart text)

/-- What is found when a run in a directory has stopped early: a simulator without an answer, a
sampling loop that never ends, or a file on which the library stops the program. -/
def Stopped (env : Environment n m) (files : Text → Option Text) :
    Halt → World Text Text Counters → Prop
  | .exit, w => Unanswered env w.files
  | .endless, _ => Unending env files
  | .outside, w =>
      (∃ infile, w.files (lit "beyond_to_satOpt.txt") = some infile ∧
        (extractNat 0 (words infile)).1 < n) ∨
      ∃ source target, (source, target) ∈ formattedFiles env ∧ Broken source target w.files

/-- A stage that stops early only for such a reason. -/
abbrev Guarded {A : Type} (env : Environment n m) (files : Text → Option Text)
    (before : World Text Text Counters → Prop) (stage : Stage A)
    (after : A → World Text Text Counters → Prop) : Prop :=
  Halts before stage after (Stopped env files)

end Stopped

section Primitives

variable {written : Set Text}

theorem tick_frame (time : ℕ → ℤ) : Frame written (tick time) := by
  apply Frame.bind (Frame.observe _)
  intro readings
  apply Frame.bind (Frame.updateInner fun c : Counters => ⟨c.draws, c.readings + 1⟩)
  exact fun _ => Frame.pure _

theorem setDraws_frame (count : ℕ) : Frame written (setDraws count) :=
  Frame.updateInner fun c : Counters => ⟨count, c.readings⟩

theorem appendFile_frame {name : Text} (listed : name ∈ written) (text : Text) :
    Frame written (appendFile name text) := by
  apply Frame.bind (Frame.observe _)
  exact fun _ => Frame.writeFile listed _

theorem writeAnswer_frame {output : Text} (listed : output ∈ written) (answer : Option Text) :
    Frame written (writeAnswer output answer) := by
  cases answer with
  | none => exact Frame.pure ()
  | some answer => exact Frame.writeFile listed answer

theorem runTool_frame (tool : Text → Option Text) (input : Text) {output : Text}
    (listed : output ∈ written) : Frame written (runTool tool input output) := by
  apply Frame.bind (Frame.observe _)
  exact fun _ => writeAnswer_frame listed _

/-- A reading of the clock draws no random number. -/
theorem tick_draws (time : ℕ → ℤ) (count : ℕ) :
    Returns (fun w => w.inner.draws = count) (tick time) fun _ w => w.inner.draws = count :=
  fun _ unused => ⟨_, _, rfl, unused⟩

theorem tick_total (time : ℕ → ℤ) : Total (tick time) := fun _ _ => ⟨_, _, rfl, trivial⟩

theorem setDraws_total (count : ℕ) : Total (setDraws count) := fun _ _ => ⟨_, _, rfl, trivial⟩

theorem readFile_total (name : Text) : Total (readFile name : Stage (Option Text)) :=
  fun _ _ => ⟨_, _, rfl, trivial⟩

theorem writeFile_total (name content : Text) : Total (writeFile name content : Stage Unit) :=
  fun _ _ => ⟨_, _, rfl, trivial⟩

theorem appendFile_total (name text : Text) : Total (appendFile name text) :=
  Returns.bind (readFile_total name) fun _ => writeFile_total name _

theorem writeAnswer_total (output : Text) (answer : Option Text) :
    Total (writeAnswer output answer) := by
  cases answer with
  | none => exact Returns.pure () fun _ _ => trivial
  | some answer => exact writeFile_total output answer

theorem runTool_total (tool : Text → Option Text) (input output : Text) :
    Total (runTool tool input output) :=
  Returns.bind (readFile_total input) fun _ => writeAnswer_total output _

/-- A written file can be opened. -/
def There (name : Text) (w : World Text Text Counters) : Prop := ∃ text, w.files name = some text

theorem writeFile_there {before : World Text Text Counters → Prop} (name content : Text) :
    Returns before (writeFile name content : Stage Unit) fun _ w => There name w :=
  Returns.update _ fun _ _ => ⟨content, World.write_files_self _ _ _⟩

/-- A simulator was asked, and when there is no file of an answer it has none. -/
def Asked (tool : Text → Option Text) (input output : Text) (files : Text → Option Text) : Prop :=
  ∃ request, files input = some request ∧ (files output = none → tool request = none)

theorem runTool_asked (tool : Text → Option Text) {input output : Text} (apart : input ≠ output) :
    Returns (There input) (runTool tool input output) fun _ w => Asked tool input output w.files := by
  rintro w ⟨request, found⟩
  have asked : Returns (fun w : World Text Text Counters => w.files input = some request)
      (runTool tool input output) fun _ w => Asked tool input output w.files := by
    apply Returns.readFile fun files found => found
    rw [Option.getD_some]
    cases answered : tool request with
    | none => exact Returns.pure _ fun w found => ⟨request, found, fun _ => answered⟩
    | some answer =>
        refine Returns.update _ fun w found =>
          ⟨request, (World.write_files_of_ne apart _ _).trans found, fun missing => ?_⟩
        rw [World.write_files_self] at missing
        cases missing
  exact asked w found

/-- A file of `iogen` is opened after `iogen` was asked. -/
theorem openFile_guarded (env : Environment n m) (files : Text → Option Text) {input output : Text}
    (listed : (input, output) ∈ iogenAsked) :
    Guarded env files (fun w => Asked env.iogen input output w.files) (openFile .exit output)
      fun text w => w.files output = some text := by
  refine (Halts.openFile Halt.exit fun w asked missing => ?_).weaken (fun _ start => start)
    (fun _ _ opened => opened.2) fun _ _ stopped => stopped
  obtain ⟨request, found, silent⟩ := asked
  exact Unanswered.iogen listed found (silent missing) missing

end Primitives

section Stages

variable (env : Environment n m) (files : Text → Option Text)

theorem buildDummyInfo_bounded : Bounded (buildDummyInfo env) := by
  apply Frame.bind (Frame.writeFile (temporary_mem (by decide)) _)
  exact fun _ => Frame.writeFile (temporary_mem (by decide)) _

theorem checkConstOutput_bounded : Bounded (checkConstOutput env) := by
  apply Frame.bind (tick_frame env.time)
  intro _
  apply Frame.bind (Frame.observe _)
  intro count
  split
  · exact Frame.stop _
  · next rows later _ =>
      apply Frame.bind (setDraws_frame later)
      intro _
      apply Frame.bind (Frame.writeFile (temporary_mem (by decide)) _)
      intro _
      apply Frame.bind (runTool_frame _ _ (temporary_mem (by decide)))
      intro _
      apply Frame.bind (Frame.openFile _ _)
      exact fun _ => Frame.pure _

/-- The sampling ends with enough room or never. -/
theorem checkConstOutput_settles : Settles (fun w => w.inner.draws = 0)
    (fun fuel => checkConstOutput (env.withFuel fuel)) (fun _ _ => 0 < n) (Stopped env files) := by
  simp only [checkConstOutput, withFuel_time, withFuel_rand, withFuel_fuel, withFuel_ioNames,
    withFuel_iogen]
  apply Settles.bind (tick_draws env.time 0).settles
  intro _
  apply Settles.observed
  intro w unused
  rw [unused]
  let search (fuel : ℕ) : Option (List (Fin n → Bool) × ℕ) :=
    ClassifyOutput.sampleLoop env.rand ClassifyOutput.patternNums fuel 0 []
  let next (sampled : List (Fin n → Bool) × ℕ) (_ : ℕ) : Stage (Fin m → ℕ) := do
    setDraws sampled.2
    writeFile (lit "beyond_classify_constant_in_pat.txt")
      (ClassifyOutput.constInPat env.ioNames sampled.1)
    runTool env.iogen (lit "beyond_classify_constant_in_pat.txt")
      (lit "beyond_classify_constant_io_rel.txt")
    let ioRel ← openFile .exit (lit "beyond_classify_constant_io_rel.txt")
    return ClassifyOutput.classifyPO n ioRel
  refine Settles.search search next .endless
    (fun _ _ _ grown => ClassifyOutput.sampleLoop_mono grown) (fun fuel missed => ?_)
    (fun fuel sampled found => ?_) ?_ fun fuel sampled found => ?_
  · simp only [search] at missed
    simp only [missed]
  · simp only [search] at found
    simp only [found, next]
  · exact fun never _ _ => Unending.classification never
  · have positive : 0 < n := ClassifyOutput.positive_of_returned found
    apply Halts.settles
    apply Halts.bind ((setDraws_total sampled.2).weaken (fun _ _ => trivial) fun _ _ done => done).halts
    intro _
    apply Halts.bind (writeFile_there _ _).halts
    intro _
    apply Halts.bind (runTool_asked env.iogen (by decide)).halts
    intro _
    apply Halts.bind (openFile_guarded env files (by decide))
    exact fun ioRel => Halts.pure _ fun _ _ => positive

theorem abcOptimization_frame {written : Set Text} (script : lit "beyond_run.script" ∈ written)
    (readBlifName : Text) {writeVerilogName : Text} (listed : writeVerilogName ∈ written) :
    Frame written (abcOptimization env readBlifName writeVerilogName) := by
  apply Frame.bind (Frame.observe _)
  intro file
  apply Frame.bind (Frame.writeFile script _)
  exact fun _ => runTool_frame _ _ listed

theorem abcOptimization_total (readBlifName writeVerilogName : Text) :
    Total (abcOptimization env readBlifName writeVerilogName) :=
  Returns.bind (readFile_total _) fun _ => Returns.bind (writeFile_total _ _) fun _ =>
    runTool_total _ _ _

theorem modifyLines_frame {written : Set Text} {writeVerilogName : Text}
    (listed : writeVerilogName ∈ written) (text : Text) :
    Frame written (modifyLines writeVerilogName text) := by
  rw [modifyLines]
  split
  · apply Frame.bind (Frame.writeFile listed _)
    exact fun _ => Frame.stop _
  · apply Frame.bind (Frame.writeFile listed _)
    exact fun _ => Frame.pure _

theorem modifyVerilogFormat_frame {written : Set Text} (readVerilogName : Text)
    {writeVerilogName : Text} (listed : writeVerilogName ∈ written) :
    Frame written (modifyVerilogFormat readVerilogName writeVerilogName) := by
  apply Frame.bind (Frame.observe _)
  exact fun file => modifyLines_frame listed _

/-- The library stops the program at a line that is too short in a file that is there. -/
theorem modifyVerilogFormat_guarded (readVerilogName writeVerilogName : Text) :
    Halts (fun _ => True) (modifyVerilogFormat readVerilogName writeVerilogName)
      (fun _ w => There writeVerilogName w) fun reason w => reason = .outside ∧
        Broken readVerilogName writeVerilogName w.files := by
  have read : Returns (fun _ => True) (readFile readVerilogName : Stage (Option Text)) fun file w =>
      w.files readVerilogName = file := Returns.observe _ fun _ _ => rfl
  apply Halts.bind read.halts
  intro file
  let text := if readVerilogName = writeVerilogName then [] else file.getD []
  change Halts _ (modifyLines writeVerilogName text) _ _
  rw [modifyLines]
  by_cases short : (lines text).any Verilog.isShort = true
  · rw [if_pos short]
    -- the empty text has no lines
    have different : readVerilogName ≠ writeVerilogName := by
      intro same
      rw [show text = [] from if_pos same] at short
      cases short
    have found : file = some text := by
      cases file with
      | none =>
          rw [show text = [] from if_neg different] at short
          cases short
      | some content => exact congrArg some (if_neg different).symm
    have written : Returns (fun w : World Text Text Counters => w.files readVerilogName = file)
        (writeFile writeVerilogName (Verilog.modifiedPart text) : Stage Unit)
        fun _ w => w.files readVerilogName = some text ∧
          w.files writeVerilogName = some (Verilog.modifiedPart text) :=
      Returns.update _ fun w holds => ⟨((World.write_files_of_ne different _ _).trans holds).trans found,
        World.write_files_self _ _ _⟩
    apply Halts.bind written.halts
    intro _
    apply Halts.stop
    exact fun w holds => ⟨rfl, text, holds.1,
      fun noShort => Bool.eq_false_iff.mp noShort short, holds.2⟩
  · rw [if_neg short]
    apply Halts.bind (writeFile_there _ _).halts
    exact fun _ => Halts.pure _ fun _ there => there

theorem rewriting_guarded {readVerilogName writeVerilogName : Text}
    (listed : (readVerilogName, writeVerilogName) ∈ formattedFiles env) :
    Guarded env files (fun _ => True) (modifyVerilogFormat readVerilogName writeVerilogName)
      fun _ _ => True := by
  refine (modifyVerilogFormat_guarded readVerilogName writeVerilogName).weaken (fun _ _ => trivial)
    (fun _ _ _ => trivial) ?_
  rintro reason w ⟨rfl, broken⟩
  exact .inr ⟨_, _, listed, broken⟩

section Circuit

theorem patternsGeneration_bounded (i : Fin m) (upLimit : ℕ) :
    Bounded (patternsGeneration env i upLimit) := by
  rw [patternsGeneration]
  split
  · apply Frame.bind (tick_frame env.time)
    intro _
    apply Frame.bind (Frame.observe _)
    intro log
    apply Frame.bind (Frame.observe _)
    intro logEx
    apply Frame.bind (Frame.observe _)
    intro count
    apply Frame.bind (setDraws_frame (count + 1))
    intro _
    split
    · exact Frame.stop _
    · apply Frame.bind (Frame.writeFile (temporary_mem (by decide)) _)
      intro _
      apply Frame.bind (runTool_frame _ _ (temporary_mem (by decide)))
      exact fun _ => Frame.pure _
  · exact Frame.pure _

/-- The state vector of `read_info` has a text, so that no access is outside of a string; there are at
most as many dummy inputs as inputs, and the simulator is asked. -/
theorem patternsGeneration_asked (positive : 0 < n) (i : Fin m) (upLimit : ℕ) :
    Returns (fun _ => True) (patternsGeneration env i upLimit) fun lists w => lists.1.length ≤ n ∧
      Asked env.iogen (lit "beyond_in_pat.txt") (lit "beyond_to_satOpt.txt") w.files := by
  rw [patternsGeneration, if_pos positive]
  apply Returns.bind (tick_total env.time)
  intro _
  apply Returns.observed
  intro log
  apply Returns.observed
  intro logEx
  apply Returns.observed
  intro count
  apply Returns.bind (setDraws_total (count + 1))
  intro _
  obtain ⟨inPat, generated⟩ := Pattern.lastGeneration_readInfo n env.atof i upLimit log logEx
    env.ioNames
  rw [generated]
  apply Returns.bind (writeFile_there _ _)
  intro _
  apply Returns.bind (runTool_asked env.iogen (by decide))
  intro _
  exact Returns.pure _ fun _ asked => ⟨Pattern.dummyPI_length_le n env.atof i upLimit log logEx, asked⟩

theorem satOptimization_bounded (dummyPI : List ℕ) (i : Fin m) :
    Bounded (satOptimization env dummyPI i) := by
  apply Frame.bind (Frame.openFile _ _)
  intro infile
  split
  · exact Frame.stop _
  · exact Frame.writeFile (temporary_mem (by decide)) _

theorem satOptimization_guarded {dummyPI : List ℕ} (few : dummyPI.length ≤ n) (i : Fin m) :
    Guarded env files (fun w => Asked env.iogen (lit "beyond_in_pat.txt") (lit "beyond_to_satOpt.txt")
        w.files)
      (satOptimization env dummyPI i) fun _ w => There (lit "beyond_to_abcOpt.txt") w := by
  apply Halts.bind (openFile_guarded env files (by decide))
  intro infile
  split
  · next negative =>
      apply Halts.stop
      intro w found
      have counted : (extractNat 0 (words infile)).1 < n := by
        rw [SatOpt.realPISize] at negative
        omega
      exact .inl ⟨infile, found, counted⟩
  · exact (writeFile_there _ _).halts

theorem writeBlif_bounded : Bounded writeBlif := by
  apply Frame.bind (Frame.openFile _ _)
  exact fun _ => appendFile_frame (temporary_mem (by decide)) _

theorem writeBlif_total : Returns (There (lit "beyond_to_abcOpt.txt")) writeBlif fun _ _ => True := by
  rintro w ⟨optResult, found⟩
  have asked : Returns (fun w : World Text Text Counters =>
      w.files (lit "beyond_to_abcOpt.txt") = some optResult) writeBlif fun _ _ => True := by
    apply Returns.openFile Halt.exit fun files found => found
    exact (appendFile_total _ _).weaken (fun _ _ => trivial) fun _ _ _ => trivial
  exact asked w found

variable (classifyPO upLimit : Fin m → ℕ)

theorem writeOutput_bounded (realPIToPO : List (List (Fin n))) (i : Fin m) :
    Bounded (writeOutput env classifyPO upLimit realPIToPO i) := by
  rw [writeOutput]
  split
  · apply Frame.bind (appendFile_frame (temporary_mem (by decide)) _)
    exact fun _ => Frame.pure _
  · split
    · apply Frame.bind (appendFile_frame (temporary_mem (by decide)) _)
      exact fun _ => Frame.pure _
    · apply Frame.bind (patternsGeneration_bounded env i (upLimit i))
      intro lists
      apply Frame.bind (satOptimization_bounded env lists.1 i)
      intro _
      apply Frame.bind writeBlif_bounded
      exact fun _ => Frame.pure _

/-- A round stops early only at the file of the simulator. -/
theorem writeOutput_guarded (positive : 0 < n) (realPIToPO : List (List (Fin n))) (i : Fin m) :
    Guarded env files (fun _ => True) (writeOutput env classifyPO upLimit realPIToPO i)
      fun _ _ => True := by
  rw [writeOutput]
  split
  · apply Halts.bind (appendFile_total _ _).halts
    exact fun _ => Halts.pure _ fun _ _ => trivial
  · split
    · apply Halts.bind (appendFile_total _ _).halts
      exact fun _ => Halts.pure _ fun _ _ => trivial
    · apply Halts.bind (patternsGeneration_asked env positive i (upLimit i)).halts
      intro lists
      apply Halts.fact
      intro few
      apply Halts.bind (satOptimization_guarded env files few i)
      intro _
      apply Halts.bind writeBlif_total.halts
      exact fun _ => Halts.pure _ fun _ _ => trivial

theorem writeOutputs_bounded : Bounded (writeOutputs env classifyPO upLimit) := by
  apply Frame.bind (Frame.foldlM (fun i _ lists =>
    writeOutput_bounded env classifyPO upLimit lists i) [])
  intro realPIToPO
  apply Frame.bind (appendFile_frame (temporary_mem (by decide)) _)
  exact fun _ => Frame.pure _

theorem writeOutputs_guarded (positive : 0 < n) :
    Guarded env files (fun _ => True) (writeOutputs env classifyPO upLimit) fun _ _ => True := by
  apply Halts.bind (Halts.foldlM (fun i _ lists =>
    writeOutput_guarded env files classifyPO upLimit positive lists i) [])
  intro realPIToPO
  apply Halts.bind (appendFile_total _ _).halts
  exact fun _ => Halts.pure _ fun _ _ => trivial

end Circuit

section Repair

variable (i : Fin m)

theorem runNcverilog_frame : Frame (repairFiles i) (runNcverilog env) := by
  apply Frame.bind (Frame.observe _)
  intro _
  apply Frame.bind (Frame.observe _)
  intro _
  apply Frame.bind (Frame.observe _)
  intro _
  apply Frame.bind (writeAnswer_frame (repairNames_subset i (by decide)) _)
  exact fun _ => Frame.writeFile (repairNames_subset i (by decide)) _

theorem findFaults_frame (patternUpLimit : ℤ) (realPI : List (Fin n)) :
    Frame (repairFiles i) (findFaults env i patternUpLimit realPI) := by
  apply Frame.bind (Frame.observe _)
  intro count
  split
  · exact Frame.stop _
  · next run later _ =>
      apply Frame.bind (setDraws_frame later)
      intro _
      apply Frame.bind (tick_frame env.time)
      intro _
      apply Frame.bind (Frame.writeFile (repairNames_subset i (by decide)) _)
      intro _
      apply Frame.bind (Frame.writeFile (repairNames_subset i (by decide)) _)
      intro _
      apply Frame.bind (runNcverilog_frame env i)
      intro _
      apply Frame.bind (runTool_frame _ _ (repairNames_subset i (by decide)))
      intro _
      apply Frame.bind (Frame.openFile _ _)
      intro verifyLog
      apply Frame.bind (Frame.openFile _ _)
      exact fun _ => Frame.pure _

/-- The files of one test. -/
structure Ready (env : Environment n m) (inPat : Text) (files : Text → Option Text) : Prop where
  asked : files (lit "beyond_fix_in_pat.txt") = some inPat
  testbench : files (lit "beyond_fixnetwork_testbench.v") = some (FixNetwork.testbench n m env.ioNames)

/-- The testbench has run, and when there is no log it has not answered. -/
structure Heard (env : Environment n m) (inPat : Text) (files : Text → Option Text) : Prop where
  asked : files (lit "beyond_fix_in_pat.txt") = some inPat
  silent : files (lit "beyond_fixnetwork_verify_log.txt") = none →
    (env.ncverilog (FixNetwork.testbench n m env.ioNames)
      ((files (lit "beyond_before_fix_circuit.v")).getD []) inPat).1 = none

theorem runNcverilog_heard (inPat : Text) : Returns (fun w => Ready env inPat w.files)
    (runNcverilog env) fun _ w => Heard env inPat w.files := by
  intro w ready
  let circuit := w.files (lit "beyond_before_fix_circuit.v")
  let answer := env.ncverilog (FixNetwork.testbench n m env.ioNames) (circuit.getD []) inPat
  let Given (files : Text → Option Text) : Prop :=
    Ready env inPat files ∧ files (lit "beyond_before_fix_circuit.v") = circuit
  let Logged (files : Text → Option Text) : Prop :=
    files (lit "beyond_fix_in_pat.txt") = some inPat ∧
      files (lit "beyond_before_fix_circuit.v") = circuit ∧
      (files (lit "beyond_fixnetwork_verify_log.txt") = none → answer.1 = none)
  have heard : Returns (fun w => Given w.files) (runNcverilog env)
      fun _ w => Heard env inPat w.files := by
    apply Returns.readFile fun files given => given.1.testbench
    apply Returns.readFile fun files given => given.2
    apply Returns.readFile fun files given => given.1.asked
    have logged : Returns (fun w => Given w.files)
        (writeAnswer (lit "beyond_fixnetwork_verify_log.txt") answer.1) fun _ w => Logged w.files := by
      cases given : answer.1 with
      | none => exact Returns.pure _ fun w start => ⟨start.1.asked, start.2, fun _ => given⟩
      | some text =>
          refine Returns.update _ fun w start => ⟨?_, ?_, fun missing => ?_⟩
          · exact (World.write_files_of_ne (by decide) _ _).trans start.1.asked
          · exact (World.write_files_of_ne (by decide) _ _).trans start.2
          · rw [World.write_files_self] at missing
            cases missing
    apply Returns.bind logged
    intro _
    refine Returns.update _ fun w logged => ⟨?_, fun missing => ?_⟩
    · exact (World.write_files_of_ne (by decide) _ _).trans logged.1
    · rw [World.write_files_of_ne (by decide)] at missing ⊢
      rw [logged.2.1]
      exact logged.2.2 missing
  exact heard w ⟨ready, rfl⟩

/-- The answer of the pattern simulator comes beside the log of the testbench. -/
theorem runTool_heard (inPat : Text) : Returns (fun w => Heard env inPat w.files)
    (runTool env.iogen (lit "beyond_fix_in_pat.txt") (lit "beyond_fix_io_rel.txt"))
    fun _ w => Heard env inPat w.files ∧
      Asked env.iogen (lit "beyond_fix_in_pat.txt") (lit "beyond_fix_io_rel.txt") w.files := by
  have kept : Ensures (fun w => Heard env inPat w.files)
      (runTool env.iogen (lit "beyond_fix_in_pat.txt") (lit "beyond_fix_io_rel.txt"))
      fun _ w => Heard env inPat w.files := by
    apply (runTool_frame env.iogen _ (Set.mem_singleton (lit "beyond_fix_io_rel.txt"))).ensures
    intro files others same heard
    have equal {name : Text} (apart : name ≠ lit "beyond_fix_io_rel.txt") :
        others name = files name := same name apart
    refine ⟨(equal (by decide)).trans heard.asked, fun missing => ?_⟩
    rw [equal (by decide)] at missing ⊢
    exact heard.silent missing
  have apart : lit "beyond_fix_in_pat.txt" ≠ lit "beyond_fix_io_rel.txt" := by decide
  have asked := (runTool_asked env.iogen apart).weaken
    (fun w (heard : Heard env inPat w.files) => ⟨_, heard.asked⟩) fun _ _ asked => asked
  exact (asked.and kept).weaken (fun _ heard => heard) fun _ _ both => ⟨both.2, both.1⟩

/-- The log of the testbench is opened after the testbench was to run. -/
theorem openLog_guarded (inPat : Text) : Guarded env files
    (fun w => Heard env inPat w.files ∧
      Asked env.iogen (lit "beyond_fix_in_pat.txt") (lit "beyond_fix_io_rel.txt") w.files)
    (openFile .exit (lit "beyond_fixnetwork_verify_log.txt"))
    fun _ w => Asked env.iogen (lit "beyond_fix_in_pat.txt") (lit "beyond_fix_io_rel.txt") w.files := by
  refine (Halts.openFile Halt.exit fun w start missing => ?_).weaken (fun _ start => start)
    (fun _ _ opened => opened.1.2) fun _ _ stopped => stopped
  exact Unanswered.ncverilog start.1.asked (start.1.silent missing) missing

/-- The drawing of the patterns ends with enough room or never. -/
theorem findFaults_settles (call : Call n m) (unending : call.Unending env → Unending env files) :
    Settles (fun w => w.inner.draws = call.count)
      (fun fuel => findFaults (env.withFuel fuel) call.i call.patternUpLimit call.realPI)
      (fun _ _ => True) (Stopped env files) := by
  simp only [findFaults, withFuel_time, withFuel_rand, withFuel_fuel, withFuel_ioNames,
    withFuel_iogen, withFuel_uninit, runNcverilog_withFuel]
  apply Settles.observed
  intro w count
  rw [count]
  let next (created : FixNetwork.Run n × ℕ) (_ : ℕ) : Stage (FixNetwork.Faults n) := do
    setDraws created.2
    let _ ← tick env.time
    let patterns := created.1.final.iogenInputPatterns
    writeFile (lit "beyond_fix_in_pat.txt") (FixNetwork.fixInPat env.ioNames patterns)
    writeFile (lit "beyond_fixnetwork_testbench.v") (FixNetwork.testbench n m env.ioNames)
    runNcverilog env
    runTool env.iogen (lit "beyond_fix_in_pat.txt") (lit "beyond_fix_io_rel.txt")
    let verifyLog ← openFile .exit (lit "beyond_fixnetwork_verify_log.txt")
    let fixIoRel ← openFile .exit (lit "beyond_fix_io_rel.txt")
    return FixNetwork.compare m call.i patterns verifyLog fixIoRel
  refine Settles.search (call.createPattern env) next .endless
    (fun _ _ _ grown => FixNetwork.createPattern_mono grown) (fun fuel missed => ?_)
    (fun fuel created found => ?_) ?_ fun fuel created _ => ?_
  · rw [Call.createPattern] at missed
    simp only [missed]
  · rw [Call.createPattern] at found
    simp only [found, next]
  · exact fun never _ _ => unending (Call.unending_of_never never)
  · let inPat := FixNetwork.fixInPat env.ioNames created.1.final.iogenInputPatterns
    have asked : Returns (fun _ => True) (writeFile (lit "beyond_fix_in_pat.txt") inPat : Stage Unit)
        fun _ w => w.files (lit "beyond_fix_in_pat.txt") = some inPat :=
      Returns.update _ fun _ _ => World.write_files_self _ _ _
    have ready : Returns (fun w => w.files (lit "beyond_fix_in_pat.txt") = some inPat)
        (writeFile (lit "beyond_fixnetwork_testbench.v") (FixNetwork.testbench n m env.ioNames) :
          Stage Unit) fun _ w => Ready env inPat w.files :=
      Returns.update _ fun w asked => ⟨(World.write_files_of_ne (by decide) _ _).trans asked,
        World.write_files_self _ _ _⟩
    apply Halts.settles
    apply Halts.bind ((setDraws_total created.2).weaken (fun _ _ => trivial) fun _ _ done => done).halts
    intro _
    apply Halts.bind (tick_total env.time).halts
    intro _
    apply Halts.bind asked.halts
    intro _
    apply Halts.bind ready.halts
    intro _
    apply Halts.bind (runNcverilog_heard env inPat).halts
    intro _
    apply Halts.bind (runTool_heard env inPat).halts
    intro _
    apply Halts.bind (openLog_guarded env files inPat)
    intro verifyLog
    apply Halts.bind (openFile_guarded env files (by decide))
    exact fun fixIoRel => Halts.pure _ fun _ _ => trivial

theorem writeFault_frame {written : Set Text} (script : lit "beyond_run.script" ∈ written) {b : ℕ}
    (own : ∀ extension, faultFile i b extension ∈ written) (patterns : List (Fin n → Bool))
    (blif : Text) : Frame written (writeFault env i b patterns blif) := by
  rw [writeFault]
  split
  · apply Frame.bind (Frame.writeFile (own _) _)
    exact fun _ => abcOptimization_frame env script _ (own _)
  · exact Frame.pure _

theorem writeFault_total (b : ℕ) (patterns : List (Fin n → Bool)) (blif : Text) :
    Total (writeFault env i b patterns blif) := by
  rw [writeFault]
  split
  · exact Returns.bind (writeFile_total _ _) fun _ => abcOptimization_total env _ _
  · exact Returns.pure _ fun _ _ => trivial

theorem fixNetwork_frame (patternUpLimit : ℤ) (realPI : List (Fin n)) :
    Frame (repairFiles i) (fixNetwork env i patternUpLimit realPI) := by
  apply Frame.bind (findFaults_frame env i patternUpLimit realPI)
  intro faults
  have own (b : ℕ) (extension : Text) := faultFile_repairFiles i b extension
  apply Frame.bind (writeFault_frame env i (repairNames_subset i (by decide)) (own 0) _ _)
  intro _
  apply Frame.bind (writeFault_frame env i (repairNames_subset i (by decide)) (own 1) _ _)
  exact fun _ => Frame.pure _

theorem fixNetwork_settles (call : Call n m) (unending : call.Unending env → Unending env files) :
    Settles (fun w => w.inner.draws = call.count)
      (fun fuel => fixNetwork (env.withFuel fuel) call.i call.patternUpLimit call.realPI)
      (fun _ _ => True) (Stopped env files) := by
  simp only [fixNetwork, withFuel_ioNames, writeFault_withFuel]
  apply Settles.bind (findFaults_settles env files call unending)
  intro faults
  apply Settles.bind (writeFault_total env call.i 0 _ _).settles
  intro _
  apply Settles.bind (writeFault_total env call.i 1 _ _).settles
  intro _
  apply Halts.settles
  exact Halts.pure _ fun _ _ => trivial

variable (start : ℤ) (gatecnt : ℕ) (notTruthTablePO : List (Fin m))
  (realPIToPO : List (List (Fin n))) (state : FixState m)

/-- A round changes the files of its own output and those that each round writes anew. -/
theorem fixOutput_frame :
    Frame (repairFiles i) (fixOutput env start gatecnt notTruthTablePO realPIToPO state i) := by
  rw [fixOutput]
  split
  · apply Frame.bind (tick_frame env.time)
    intro now
    apply Frame.bind (tick_frame env.time)
    intro _
    apply Frame.bind (fixNetwork_frame env i _ _)
    intro flags
    apply Frame.bind (tick_frame env.time)
    exact fun _ => Frame.pure _
  · exact Frame.pure _

/-- A round ends with enough room, or its call never ends. -/
theorem round_settles (prepared : Prepared n m) (w : World Text Text Counters)
    (unending : i ∈ prepared.notTruthTablePO → (prepared.call env state w i).Unending env →
      Unending env files) :
    Settles (· = w) (fun fuel => prepared.round (env.withFuel fuel) state i) (fun _ _ => True)
      (Stopped env files) := by
  by_cases listed : i ∈ prepared.notTruthTablePO
  · simp only [Prepared.round, fixOutput, if_pos listed, withFuel_time, withFuel_rounding,
      withFuel_undefined]
    have read : Returns (· = w) (tick env.time) fun now v =>
        now = env.time w.inner.readings ∧ v.inner.draws = w.inner.draws := by
      rintro _ rfl
      exact ⟨_, _, rfl, rfl, rfl⟩
    apply Settles.bind read.settles
    intro now
    apply Settles.fact
    rintro rfl
    apply Settles.bind (tick_draws env.time _).settles
    intro _
    apply Settles.bind (fixNetwork_settles env files (prepared.call env state w i) (unending listed))
    intro flags
    apply Settles.bind (tick_total env.time).settles
    intro _
    apply Halts.settles
    exact Halts.pure _ fun _ _ => trivial
  · simp only [Prepared.round, fixOutput, if_neg listed]
    apply Halts.settles
    exact Halts.pure _ fun _ _ => trivial

end Repair

theorem mixVerilog_bounded : Bounded (mixVerilog env) := by
  apply Frame.bind (Frame.observe _)
  intro status
  apply Frame.bind (Frame.observe _)
  intro mixCircuit
  apply Frame.bind (Frame.writeFile (temporary_mem (by decide)) _)
  intro _
  apply Frame.bind (modifyVerilogFormat_frame _ (temporary_mem (by decide)))
  intro _
  apply Frame.bind (Frame.writeFile (temporary_mem (by decide)) _)
  intro _
  apply Frame.bind (runTool_frame _ _ (temporary_mem (by decide)))
  exact fun _ => Frame.pure _

theorem mixVerilog_guarded : Guarded env files (fun _ => True) (mixVerilog env) fun _ _ => True := by
  apply Halts.observed
  intro status
  apply Halts.observed
  intro mixCircuit
  apply Halts.bind (writeFile_total _ _).halts
  intro _
  apply Halts.bind (rewriting_guarded env files (by simp [formattedFiles]))
  intro _
  apply Halts.bind (writeFile_total _ _).halts
  intro _
  apply Halts.bind (runTool_total _ _ _).halts
  exact fun _ => Halts.pure _ fun _ _ => trivial

end Stages

section Run

variable (env : Environment n m) (files : Text → Option Text)

/-- The files that are not temporary are those of the beginning. -/
abbrev Spared (w : World Text Text Counters) : Prop := Untouched temporaries files w

/-- What a run leaves behind when it gives a report. -/
structure Finished (env : Environment n m) (files : Text → Option Text)
    (w : World Text Text Counters) : Prop where
  removed : ∀ name, isTemporary name = true → w.files name = none
  circuit : isTemporary env.circuitName = false → ∃ text, w.files env.circuitName = some text
  others : ∀ name, isTemporary name = false → name ≠ env.circuitName → w.files name = files name

/-- What a run leaves behind when it stops early; when the library stops it, it may be at the circuit. -/
structure Abandoned (env : Environment n m) (files : Text → Option Text) (reason : Halt)
    (w : World Text Text Counters) : Prop where
  stopped : Stopped env files reason w
  others : ∀ name, isTemporary name = false → (name = env.circuitName → reason ≠ .outside) →
    w.files name = files name

theorem notMem_temporaries {name : Text} (solid : isTemporary name = false) : name ∉ temporaries := by
  intro inside
  rw [show isTemporary name = true from inside] at solid
  cases solid

/-- The circuit is all that changes beside the temporary files. -/
def CircuitWritten (w : World Text Text Counters) : Prop :=
  There env.circuitName w ∧ Untouched (insert env.circuitName temporaries) files w

variable {files} in
theorem kept_of_untouched {w : World Text Text Counters}
    (untouched : Untouched (insert env.circuitName temporaries) files w) {name : Text}
    (solid : isTemporary name = false) (apart : name ≠ env.circuitName) : w.files name = files name := by
  apply untouched name
  rintro (same | inside)
  · exact apart same
  · exact notMem_temporaries solid inside

/-- The circuit is written and the other files are spared, or the library stops the program at it. -/
theorem circuit_spares : Halts (Spared files)
    (modifyVerilogFormat (lit "beyond_after_flatten_circuit.v") env.circuitName)
    (fun _ => CircuitWritten env files) (Abandoned env files) := by
  have more : temporaries ⊆ insert env.circuitName temporaries := Set.subset_insert _ _
  refine (Frame.halts (modifyVerilogFormat_frame (lit "beyond_after_flatten_circuit.v")
    (Set.mem_insert env.circuitName temporaries)) (modifyVerilogFormat_guarded
      (lit "beyond_after_flatten_circuit.v") env.circuitName) files).weaken
    (fun w spared => ⟨trivial, fun name outside => spared name fun inside => outside (more inside)⟩)
    (fun _ _ written => written) ?_
  rintro reason w ⟨⟨rfl, short⟩, untouched⟩
  refine ⟨.inr ⟨_, _, by simp [formattedFiles], short⟩, fun name solid own => ?_⟩
  exact kept_of_untouched env untouched solid fun same => own same rfl

/-- The last steps remove the temporary files. -/
theorem cleanUp_finished (found status : Fin m → Bool × Bool) :
    Returns (CircuitWritten env files) (cleanUp env found status) fun _ => Finished env files := by
  rintro w ⟨⟨text, circuit⟩, untouched⟩
  refine ⟨_, _, rfl, fun name temporary => if_pos temporary, fun solid => ⟨text, ?_⟩,
    fun name solid apart => ?_⟩
  · exact (if_neg (by simp [solid])).trans circuit
  · exact (if_neg (by simp [solid])).trans (kept_of_untouched env untouched solid apart)

/-- Beside everything else that is known of a stage, it leaves the other files alone. -/
theorem spares {A : Type} {stage : ℕ → Stage A} {before : World Text Text Counters → Prop}
    {after : A → World Text Text Counters → Prop} (bounded : ∀ fuel, Bounded (stage fuel))
    (settles : Settles before stage after (Stopped env files)) :
    Settles (fun w => before w ∧ Spared files w) stage (fun a w => after a w ∧ Spared files w)
      (Abandoned env files) :=
  (Settles.frame settles bounded files).weaken (fun _ start => start) (fun _ _ reached => reached)
    fun _ _ stopped => ⟨stopped.1, fun name solid _ => stopped.2 name (notMem_temporaries solid)⟩

theorem spares_of_guarded {A : Type} {stage : Stage A} (bounded : Bounded stage)
    (guarded : Guarded env files (fun _ => True) stage fun _ _ => True) :
    Settles (Spared files) (fun _ => stage) (fun _ => Spared files) (Abandoned env files) :=
  (spares env files (fun _ => bounded) guarded.settles).weaken (fun _ spared => ⟨trivial, spared⟩)
    (fun _ _ reached => reached.2) fun _ _ stopped => stopped

theorem spares_of_total {A : Type} {stage : Stage A} (bounded : Bounded stage) (total : Total stage) :
    Settles (Spared files) (fun _ => stage) (fun _ => Spared files) (Abandoned env files) :=
  spares_of_guarded env files bounded total.halts

theorem tick_spares :
    Settles (Spared files) (fun _ => tick env.time) (fun _ => Spared files) (Abandoned env files) :=
  spares_of_total env files (tick_frame env.time) (tick_total env.time)

/-- The stages before the second loop spare the other files. -/
theorem prepare_spares : Settles (· = startIn files) (fun fuel => prepare (env.withFuel fuel))
    (fun _ => Spared files) (Abandoned env files) := by
  simp only [prepare, withFuel_time, buildDummyInfo_withFuel, writeBlifHeader_withFuel,
    withFuel_decideUpLimit, writeOutputs_withFuel, abcOptimization_withFuel]
  -- no random number is drawn before the sampling
  let Begun (w : World Text Text Counters) : Prop := w.inner.draws = 0 ∧ Spared files w
  have started : Settles (· = startIn files) (fun _ => tick env.time) (fun _ => Begun)
      (Abandoned env files) := by
    refine (spares env files (fun _ => tick_frame env.time) (tick_draws env.time 0).settles).weaken ?_
      (fun _ _ begun => begun) fun _ _ stopped => stopped
    rintro _ rfl
    exact ⟨rfl, fun _ _ => rfl⟩
  have built : Returns (fun w => w.inner.draws = 0) (buildDummyInfo env)
      fun _ w => w.inner.draws = 0 := fun _ unused => ⟨_, _, rfl, unused⟩
  apply Settles.bind started
  intro start
  apply Settles.bind (spares env files (fun _ => buildDummyInfo_bounded env) built.settles)
  intro _
  apply Settles.bind (spares env files (fun fuel => checkConstOutput_bounded (env.withFuel fuel))
    (checkConstOutput_settles env files))
  intro classifyPO
  apply Settles.fact
  intro positive
  apply Settles.bind (spares_of_total env files (Frame.writeFile (temporary_mem (by decide)) _)
    (writeFile_total _ _))
  intro _
  apply Settles.bind (tick_spares env files)
  intro _
  apply Settles.bind (spares_of_guarded env files (writeOutputs_bounded env classifyPO _)
    (writeOutputs_guarded env files classifyPO _ positive))
  intro realPIToPO
  apply Settles.bind (spares_of_total env files (abcOptimization_frame env (temporary_mem (by decide)) _
    (temporary_mem (by decide))) (abcOptimization_total env _ _))
  intro _
  apply Settles.bind (tick_spares env files)
  intro _
  apply Settles.bind (spares_of_guarded env files (modifyVerilogFormat_frame _ (temporary_mem (by decide)))
    (rewriting_guarded env files (by simp [formattedFiles])))
  intro gatecnt0
  apply Settles.bind (tick_spares env files)
  intro _
  apply Halts.settles
  exact Halts.pure _ fun _ spared => spared

/-- A round of the second loop spares the other files. -/
theorem round_spares {prepared : Prepared n m} {state : FixState m} {w : World Text Text Counters}
    {i : Fin m} (comes : Comes env files prepared state w i) (spared : Spared files w) :
    Settles (· = w) (fun fuel => prepared.round (env.withFuel fuel) state i) (fun _ => Spared files)
      (Abandoned env files) := by
  have settles := round_settles env files i state prepared w fun listed unending =>
    Unending.patterns ⟨prepared, state, w, i, comes, listed, rfl⟩ unending
  have bounded (fuel : ℕ) : Bounded (prepared.round (env.withFuel fuel) state i) :=
    (fixOutput_frame (env.withFuel fuel) i _ _ _ _ state).mono (repairFiles_temporary i)
  exact (spares env files bounded settles).weaken (fun _ same => ⟨same, same ▸ spared⟩)
    (fun _ _ reached => reached.2) fun _ _ stopped => stopped

/-- The stages after the second loop write the circuit. -/
theorem finish_spares (fixed : FixState m) :
    Settles (Spared files) (fun fuel => finish (env.withFuel fuel) fixed) (fun _ => Finished env files)
      (Abandoned env files) := by
  simp only [finish, withFuel_time, mixVerilog_withFuel, withFuel_circuitName]
  apply Settles.bind (tick_spares env files)
  intro _
  apply Settles.bind (spares_of_guarded env files (mixVerilog_bounded env) (mixVerilog_guarded env files))
  intro status
  apply Settles.bind (tick_spares env files)
  intro _
  apply Settles.bind (circuit_spares env files).settles
  intro _
  exact (cleanUp_finished env files fixed.found status).settles

end Run

end LogicRegression.Main
