import LogicRegression.Construction.Main
import LogicRegression.Proof.WriteBlif.Drivers

namespace LogicRegression.Main

open Text Program Pattern Synthesis Blif WriteBlif

variable {n m : ℕ} (env : Environment n m) (classifyPO upLimit : Fin m → ℕ)
  (log logEx : Option Text)

/-- The state of the inputs for one output. -/
def piState (i : Fin m) : List Bool :=
  (readInfo env.atof i (upLimit i) log logEx : Info n).piState

/-- The file that the simulator reads for one output. -/
def request (i : Fin m) : Text :=
  (lastGeneration env.ioNames n (piState env upLimit log logEx i) (upLimit i)).getD []

/-- The file that the simulator writes for one output. -/
def answer (i : Fin m) : Text := (env.iogen (request env upLimit log logEx i)).getD []

/-- The simulator writes a file, and this file counts at least the dummy inputs. -/
structure Answering (i : Fin m) : Prop where
  written : (env.iogen (request env upLimit log logEx i)).isSome
  size : 0 ≤ SatOpt.realPISize (answer env upLimit log logEx i)
    (dummyPI (piState env upLimit log logEx i))

/-- The table that is made from the answer of the simulator. -/
def tableText (i : Fin m) : Text :=
  WriteBlif.writeBlif (SatOpt.satOptimization (env.sorts i) (env.hashOrder i)
    (answer env upLimit log logEx i) (dummyPI (piState env upLimit log logEx i)) i)

/-- The text that the first loop appends for one output. -/
def outputText (i : Fin m) : Text :=
  if classifyPO i = 0 then WriteBlif.writeBlifConstant n env.ioNames i 0
  else if classifyPO i = 1 then WriteBlif.writeBlifConstant n env.ioNames i 1
  else tableText env upLimit log logEx i

/-- The simulator answers the files of all outputs that are not constant. -/
def Answers : Prop :=
  ∀ i, classifyPO i ≠ 0 → classifyPO i ≠ 1 → Answering env upLimit log logEx i

/-- The logs have not changed, and the circuit file has this text. -/
structure Written (log logEx : Option Text) (text : Text) (files : Text → Option Text) : Prop where
  log : files (lit "beyond_DummyInfo.log") = log
  logEx : files (lit "beyond_DummyInfo_ex.log") = logEx
  circuit : files (lit "beyond_circuit.blif") = some text

variable {log logEx} {text : Text} {files : Text → Option Text}

/-- A file of another name does not matter. -/
theorem Written.write (written : Written log logEx text files) {name : Text}
    (apart : name ∉ [lit "beyond_DummyInfo.log", lit "beyond_DummyInfo_ex.log",
      lit "beyond_circuit.blif"]) (content : Text) :
    Written log logEx text (Function.update files name (some content)) := by
  have kept {other : Text} (listed : other ∈ [lit "beyond_DummyInfo.log",
      lit "beyond_DummyInfo_ex.log", lit "beyond_circuit.blif"]) :
      Function.update files name (some content) other = files other := by
    apply Function.update_of_ne
    intro same
    exact apart (same ▸ listed)
  exact ⟨(kept (by simp)).trans written.log, (kept (by simp)).trans written.logEx,
    (kept (by simp)).trans written.circuit⟩

theorem Written.append (written : Written log logEx text files) (more : Text) :
    Written log logEx more
      (Function.update files (lit "beyond_circuit.blif") (some more)) :=
  ⟨(Function.update_of_ne (by decide) _ _).trans written.log,
    (Function.update_of_ne (by decide) _ _).trans written.logEx, Function.update_self _ _ _⟩

theorem appendFile_returns (more : Text) :
    Returns (fun w => Written log logEx text w.files) (appendFile (lit "beyond_circuit.blif") more)
      fun _ w => Written log logEx (text ++ more) w.files := by
  apply Returns.readFile fun files written => written.circuit
  exact Returns.update _ fun w written => written.append (text ++ more)

theorem tick_returns {Q : (Text → Option Text) → Prop} (time : ℕ → ℤ) :
    Returns (fun w => Q w.files) (tick time) fun _ w => Q w.files := by
  apply Returns.observed
  intro readings
  have step : Returns (fun w => Q w.files) (Program.update fun w : World Text Text Counters =>
      { w with inner := ⟨w.inner.draws, w.inner.readings + 1⟩ } : Stage Unit) fun _ w => Q w.files :=
    Returns.update _ fun _ start => start
  exact Returns.bind step fun _ => Returns.pure _ fun _ start => start

theorem setDraws_returns {Q : (Text → Option Text) → Prop} (count : ℕ) :
    Returns (fun w => Q w.files) (setDraws count) fun _ w => Q w.files :=
  Returns.update _ fun _ start => start

theorem runTool_returns {Q R : (Text → Option Text) → Prop} {tool : Text → Option Text}
    {input output file text : Text} (known : ∀ files, Q files → files input = some file)
    (answered : tool file = some text)
    (written : ∀ files, Q files → R (Function.update files output (some text))) :
    Returns (fun w => Q w.files) (runTool tool input output) fun _ w => R w.files := by
  apply Returns.readFile known
  rw [Option.getD_some, answered]
  exact Returns.update _ fun w start => written w.files start

/-- The result of the minimiser is there as well. -/
structure Minimized (log logEx : Option Text) (text optResult : Text)
    (files : Text → Option Text) : Prop where
  written : Written log logEx text files
  cubes : files (lit "beyond_to_abcOpt.txt") = some optResult

theorem writeBlif_returns (optResult : Text) :
    Returns (fun w => Minimized log logEx text optResult w.files) writeBlif
      fun _ w => Written log logEx (text ++ WriteBlif.writeBlif optResult) w.files := by
  apply Returns.openFile Halt.exit fun files minimized => minimized.cubes
  exact Returns.weaken (appendFile_returns _) (fun _ minimized => minimized.written)
    fun _ _ written => written

section Output

variable (log logEx) (i : Fin m)

/-- The simulation of one output leaves the answer for its truth table behind. -/
structure Simulated (env : Environment n m) (upLimit : Fin m → ℕ) (log logEx : Option Text)
    (i : Fin m) (text : Text) (files : Text → Option Text) : Prop where
  written : Written log logEx text files
  answer : files (lit "beyond_to_satOpt.txt") = some (answer env upLimit log logEx i)

theorem patternsGeneration_returns (positive : 0 < n)
    (answering : Answering env upLimit log logEx i) :
    Returns (fun w => Written log logEx text w.files) (patternsGeneration env i (upLimit i))
      fun lists w => lists.1 = dummyPI (piState env upLimit log logEx i) ∧
        Simulated env upLimit log logEx i text w.files := by
  obtain ⟨inPat, generated⟩ := lastGeneration_readInfo n env.atof i (upLimit i) log logEx
    env.ioNames
  have asked : request env upLimit log logEx i = inPat := by
    rw [request, piState, generated, Option.getD_some]
  have answered : env.iogen inPat = some (answer env upLimit log logEx i) := by
    obtain ⟨infile, found⟩ := Option.isSome_iff_exists.mp (asked ▸ answering.written)
    rw [answer, asked, found, Option.getD_some]
  rw [patternsGeneration, if_pos positive]
  apply Returns.bind (tick_returns env.time)
  intro _
  apply Returns.readFile fun files written => written.log
  apply Returns.readFile fun files written => written.logEx
  apply Returns.observed
  intro count
  apply Returns.bind (setDraws_returns (count + 1))
  intro _
  rw [generated]
  let Asked (files : Text → Option Text) : Prop :=
    Written log logEx text files ∧ files (lit "beyond_in_pat.txt") = some inPat
  apply Returns.writeFile (R := Asked) _ _ fun files written =>
    ⟨written.write (by decide) _, Function.update_self _ _ _⟩
  apply Returns.bind (runTool_returns (Q := Asked) (R := Simulated env upLimit log logEx i text)
    (fun files start => start.2) answered fun files start =>
      ⟨start.1.write (by decide) _, Function.update_self _ _ _⟩)
  intro _
  exact Returns.pure _ fun w simulated => ⟨rfl, simulated⟩

/-- The cubes of one output are written for the next stage. -/
theorem satOptimization_returns {dummyPI : List ℕ}
    (size : 0 ≤ SatOpt.realPISize (answer env upLimit log logEx i) dummyPI) :
    Returns (fun w => Simulated env upLimit log logEx i text w.files)
      (satOptimization env dummyPI i) fun _ w => Minimized log logEx text
        (SatOpt.satOptimization (env.sorts i) (env.hashOrder i)
          (answer env upLimit log logEx i) dummyPI i) w.files := by
  apply Returns.openFile Halt.exit fun files simulated => simulated.answer
  rw [if_neg size.not_gt]
  exact Returns.update _ fun w simulated =>
    ⟨simulated.written.write (by decide) _, World.write_files_self _ _ _⟩

/-- One round of the first loop appends the text of its output. -/
theorem writeOutput_returns (positive : 0 < n)
    (answers : Answers env classifyPO upLimit log logEx) (realPIToPO : List (List (Fin n))) :
    Returns (fun w => Written log logEx text w.files)
      (writeOutput env classifyPO upLimit realPIToPO i) fun _ w =>
        Written log logEx (text ++ outputText env classifyPO upLimit log logEx i) w.files := by
  rw [writeOutput, outputText]
  by_cases zero : classifyPO i = 0
  · rw [if_pos zero, if_pos zero]
    apply Returns.bind (appendFile_returns _)
    exact fun _ => Returns.pure _ fun _ written => written
  · by_cases one : classifyPO i = 1
    · rw [if_neg zero, if_neg zero, if_pos one, if_pos one]
      apply Returns.bind (appendFile_returns _)
      exact fun _ => Returns.pure _ fun _ written => written
    · rw [if_neg zero, if_neg zero, if_neg one, if_neg one]
      have answering := answers i zero one
      apply Returns.bind (patternsGeneration_returns env upLimit log logEx i positive answering)
      rintro ⟨dummyPI, realPI⟩
      apply Returns.fact
      rintro rfl
      apply Returns.bind (satOptimization_returns env upLimit log logEx i answering.size)
      intro _
      apply Returns.bind (writeBlif_returns _)
      exact fun _ => Returns.pure _ fun _ written => written

end Output

/-- The text of the circuit file when the loop has ended. -/
def circuitText (log logEx : Option Text) : Text :=
  WriteBlif.writeBlifHeader n m env.ioNames ++
    (List.finRange m).flatMap (outputText env classifyPO upLimit log logEx) ++
    WriteBlif.writeBlifEnd

/-- The header, the rounds of the loop and the end make up the whole file. -/
theorem writeOutputs_returns (positive : 0 < n) (w : World Text Text Counters)
    (answers : Answers env classifyPO upLimit (w.files (lit "beyond_DummyInfo.log"))
      (w.files (lit "beyond_DummyInfo_ex.log"))) :
    ∃ realPIToPO v,
      (do writeBlifHeader env; writeOutputs env classifyPO upLimit) w = (.ok realPIToPO, v) ∧
      v.files (lit "beyond_circuit.blif") = some (circuitText env classifyPO upLimit
        (w.files (lit "beyond_DummyInfo.log")) (w.files (lit "beyond_DummyInfo_ex.log"))) := by
  let log := w.files (lit "beyond_DummyInfo.log")
  let logEx := w.files (lit "beyond_DummyInfo_ex.log")
  let header := WriteBlif.writeBlifHeader n m env.ioNames
  have started : ∀ files : Text → Option Text, files = w.files →
      Written log logEx header (Function.update files (lit "beyond_circuit.blif") (some header)) := by
    rintro files rfl
    exact ⟨Function.update_of_ne (by decide) _ _, Function.update_of_ne (by decide) _ _,
      Function.update_self _ _ _⟩
  let I (done : List (Fin m)) (_ : List (List (Fin n))) (v : World Text Text Counters) : Prop :=
    Written log logEx
      (header ++ done.flatMap (outputText env classifyPO upLimit log logEx)) v.files
  have step (done : List (Fin m)) (i : Fin m) (_ : done ++ [i] <+: List.finRange m)
      (lists : List (List (Fin n))) :
      Returns (I done lists) (writeOutput env classifyPO upLimit lists i) (I (done ++ [i])) := by
    simp only [I, List.flatMap_append, List.flatMap_singleton, ← List.append_assoc]
    exact writeOutput_returns env classifyPO upLimit log logEx i positive answers lists
  have body : Returns (I [] []) (writeOutputs env classifyPO upLimit) fun _ v =>
      Written log logEx (circuitText env classifyPO upLimit log logEx) v.files := by
    apply Returns.bind (Returns.foldlM step [])
    intro lists
    apply Returns.bind (appendFile_returns _)
    exact fun _ => Returns.pure _ fun _ written => written
  have whole : Returns (fun v => v.files = w.files)
      (do writeBlifHeader env; writeOutputs env classifyPO upLimit) fun _ v =>
        Written log logEx (circuitText env classifyPO upLimit log logEx) v.files := by
    apply Returns.writeFile (R := Written log logEx header) _ _ started
    have start : I [] [] = fun v => Written log logEx header v.files := by
      funext v
      exact congrArg (Written log logEx · v.files) (List.append_nil header)
    exact start ▸ body
  obtain ⟨lists, v, returned, written⟩ := whole w rfl
  exact ⟨lists, v, returned, written.circuit⟩

section Answers

variable {env} (io : IoNames n m) {golden : (Fin n → Bool) → Fin m → Bool}
  {rows : List (Fin n → Bool)} {infile : Text}

/-- A relation file counts all inputs. -/
theorem realPISize_nonneg (counted : (Text.extractNat 0 (words infile)).1 = n) (i : Fin m) :
    0 ≤ SatOpt.realPISize infile (dummyPI (piState env upLimit log logEx i)) := by
  have size := dummyPI_length_le n env.atof i (upLimit i) log logEx
  rw [SatOpt.realPISize, counted, piState]
  omega

theorem answering_of_eq {i : Fin m} (found : env.iogen (request env upLimit log logEx i) = some infile)
    (counted : (Text.extractNat 0 (words infile)).1 = n) : Answering env upLimit log logEx i where
  written := found ▸ rfl
  size := by
    rw [answer, found]
    exact realPISize_nonneg upLimit counted i

theorem counted_of_relation (written : words infile = relationWords io.names golden rows) :
    (Text.extractNat 0 (words infile)).1 = n := by
  rw [written, relationWords, List.cons_append, Text.extractNat_decimal]

/-- The rows that are asked for one output. -/
def requestRows (env : Environment n m) (upLimit : Fin m → ℕ) (log : Option Text) (i : Fin m) :
    List (Fin n → Bool) :=
  tableRows (piStateOf (keptPI n env.atof i (upLimit i) log)) (upLimit i)

theorem requestRows_ne_nil (i : Fin m) : requestRows env upLimit log i ≠ [] := by
  intro none
  have size := tableRows_length (piStateOf (keptPI n env.atof i (upLimit i) log)) (upLimit i)
  rw [requestRows] at none
  rw [none, List.length_nil] at size
  exact absurd size (by positivity)

/-- Below the limit the file of an output is a pattern file. -/
theorem request_words (names : env.ioNames = io.names) {i : Fin m} (small : upLimit i < 30) :
    words (request env upLimit log logEx i) = patternWords io.names (requestRows env upLimit log i) := by
  have fits : (List.ofFn (piStateOf (keptPI n env.atof i (upLimit i) log))).count false ≤
      upLimit i := by
    rw [count_piStateOf]
    exact keptPI_card n env.atof i (upLimit i) log
  obtain ⟨inPat, generated, written⟩ := lastGeneration_words io small fits
  rw [request, piState, readInfo_piState, names, generated]
  exact written

/-- From the limit on the file of an output is empty. -/
theorem request_empty {i : Fin m} (large : 30 ≤ upLimit i) : request env upLimit log logEx i = [] := by
  rw [request, lastGeneration, if_neg (by rw [notDummyUpLimit]; omega), Option.getD_some]

/-- The file of an output is answered with a relation file. -/
def Related (env : Environment n m) (upLimit : Fin m → ℕ) (log logEx : Option Text)
    (io : IoNames n m) (i : Fin m) : Prop :=
  ∃ infile, ∃ golden : (Fin n → Bool) → Fin m → Bool, ∃ rows : List (Fin n → Bool),
    env.iogen (request env upLimit log logEx i) = some infile ∧
    words infile = relationWords io.names golden rows

theorem Related.answering {i : Fin m} (related : Related env upLimit log logEx io i) :
    Answering env upLimit log logEx i := by
  obtain ⟨infile, golden, rows, found, written⟩ := related
  exact answering_of_eq upLimit found (counted_of_relation io written)

/-- Below the limit the answer is a relation file. -/
theorem related_of_serves (names : env.ioNames = io.names) (served : Serves io env.iogen) {i : Fin m}
    (small : upLimit i < 30) : Related env upLimit log logEx io i := by
  obtain ⟨golden, answers⟩ := served
  have asked : words (request env upLimit log logEx i) = _ := request_words upLimit io names small
  obtain ⟨infile, found, written⟩ := answers _ _ (requestRows_ne_nil upLimit i) asked
  exact ⟨infile, golden, _, found, written⟩

end Answers

section Driven

variable {env} (io : IoNames n m) (names : env.ioNames = io.names)

include names in
/-- The text of an output is a complete table when it is constant, and for other outputs when the
table is. -/
theorem outputText_isBlock {complete : Fin m → Prop} (i : Fin m)
    (table : classifyPO i ≠ 0 → classifyPO i ≠ 1 → IsBlock io i (complete i)
      (tableText env upLimit log logEx i)) :
    IsBlock io i (classifyPO i ≠ 0 → classifyPO i ≠ 1 → complete i)
      (outputText env classifyPO upLimit log logEx i) := by
  rw [outputText]
  split
  · next zero =>
      rw [names]
      exact isBlock_constant io i 0 fun other => absurd zero other
  · next zero =>
      split
      · next one =>
          rw [names]
          exact isBlock_constant io i 1 fun _ other => absurd one other
      · next one =>
          have condition : (classifyPO i ≠ 0 → classifyPO i ≠ 1 → complete i) ↔ complete i :=
            ⟨fun all => all zero one, fun own _ _ => own⟩
          rw [condition]
          exact table zero one

include names in
/-- All outputs have one driver exactly when the tables of all simulated outputs are complete. -/
theorem circuitText_driven_iff {complete : Fin m → Prop}
    (table : ∀ i, classifyPO i ≠ 0 → classifyPO i ≠ 1 → IsBlock io i (complete i)
      (tableText env upLimit log logEx i)) :
    Driven ((List.finRange m).map (mainNet io)) (circuitText env classifyPO upLimit log logEx) ↔
      ∀ i, classifyPO i ≠ 0 → classifyPO i ≠ 1 → complete i := by
  rw [circuitText, names]
  exact driven_iff io fun i => outputText_isBlock classifyPO upLimit io names i (table i)

/-- The table of a relation file is complete when an input is kept. -/
theorem Related.isBlock {i : Fin m} (related : Related env upLimit log logEx io i) :
    IsBlock io i (false ∈ piState env upLimit log logEx i) (tableText env upLimit log logEx i) := by
  obtain ⟨infile, golden, rows, found, written⟩ := related
  have block := isBlock_relation io (env.sorts i) (env.hashOrder i) i
    (keptPI n env.atof i (upLimit i) log) written
  rw [← readInfo_piState n env.atof i (upLimit i) log logEx] at block
  rw [tableText, answer, found, Option.getD_some, piState, false_mem_piState]
  exact block

/-- A file that counts no outputs gives a directive without signals. -/
theorem isBlock_blank {i : Fin m} (found : env.iogen (request env upLimit log logEx i) =
    some (decimal n)) : IsBlock io i False (tableText env upLimit log logEx i) := by
  have empty : tableText env upLimit log logEx i = lit ".names" ++ ['\n'] := by
    rw [tableText, answer, found, Option.getD_some, SatOpt.satOptimization,
      words_word (decimal_isWord n), Text.extractNat_decimal]
    exact (congrArg WriteBlif.writeBlif (if_pos (.inr rfl))).trans writeBlif_nil
  rw [empty]
  exact ⟨⟨lit ".names", rfl⟩, [], by decide, fun complete => complete.elim, fun _ => rfl⟩

end Driven

/-- The same environment with another simulator. -/
def Environment.withIogen (env : Environment n m) (tool : Text → Option Text) : Environment n m :=
  { env with iogen := tool }

section Tools

variable (env : Environment n m) (io : IoNames n m) (classifyPO upLimit : Fin m → ℕ)
  (w : World Text Text Counters)

/-- With this simulator the first part of `main` ends, and its file gives each output one driver and
has no directive without signals. -/
def DrivenBy (tool : Text → Option Text) : Prop :=
  ∃ realPIToPO : List (List (Fin n)), ∃ v text,
    (do writeBlifHeader (env.withIogen tool)
        writeOutputs (env.withIogen tool) classifyPO upLimit) w = (.ok realPIToPO, v) ∧
    v.files (lit "beyond_circuit.blif") = some text ∧
    Driven ((List.finRange m).map fun i => io.output i ++ lit "_main") text

/-- The state of the inputs of one output in a directory. -/
abbrev stateIn (i : Fin m) : List Bool :=
  (readInfo env.atof i (upLimit i) (w.files (lit "beyond_DummyInfo.log"))
    (w.files (lit "beyond_DummyInfo_ex.log")) : Info n).piState

variable {env io classifyPO upLimit w} (positive : 0 < n) {tool : Text → Option Text}
include positive

/-- When all files are answered, the run ends and its file is known. -/
theorem drivenBy_iff (answers : Answers (env.withIogen tool) classifyPO upLimit
      (w.files (lit "beyond_DummyInfo.log")) (w.files (lit "beyond_DummyInfo_ex.log"))) :
    DrivenBy env io classifyPO upLimit w tool ↔
      Driven ((List.finRange m).map (mainNet io)) (circuitText (env.withIogen tool) classifyPO
        upLimit (w.files (lit "beyond_DummyInfo.log")) (w.files (lit "beyond_DummyInfo_ex.log"))) := by
  obtain ⟨lists, v, returned, written⟩ :=
    writeOutputs_returns (env.withIogen tool) classifyPO upLimit positive w answers
  constructor
  · intro ⟨lists', v', text, returned', written', driven⟩
    rw [returned] at returned'
    cases returned'
    rw [written] at written'
    exact Option.some.inj written' ▸ driven
  · exact fun driven => ⟨lists, v, _, returned, written, driven⟩

variable (names : env.ioNames = io.names)
include names

/-- Below the limit the outputs are driven when each simulated one keeps an input. -/
theorem drivenBy_small (served : Serves io tool)
    (small : ∀ i, classifyPO i ≠ 0 → classifyPO i ≠ 1 → upLimit i < 30) :
    DrivenBy env io classifyPO upLimit w tool ↔
      ∀ i, classifyPO i ≠ 0 → classifyPO i ≠ 1 → false ∈ stateIn env upLimit w i := by
  let log := w.files (lit "beyond_DummyInfo.log")
  let logEx := w.files (lit "beyond_DummyInfo_ex.log")
  have known : (env.withIogen tool).ioNames = io.names := names
  have related (i : Fin m) (zero : classifyPO i ≠ 0) (one : classifyPO i ≠ 1) :
      Related (env.withIogen tool) upLimit log logEx io i :=
    related_of_serves upLimit io known served (small i zero one)
  have answers : Answers (env.withIogen tool) classifyPO upLimit log logEx := fun i zero one =>
    (related i zero one).answering
  exact (drivenBy_iff positive answers).trans
    (circuitText_driven_iff classifyPO upLimit io known fun i zero one => (related i zero one).isBlock)

/-- This simulator counts no outputs when the file is empty. -/
def blankIogen (io : IoNames n m) (file : Text) : Option Text :=
  if file = [] then some (decimal n)
  else some ((referenceIogen io fun _ _ => false).run file)

omit positive names in
theorem blankIogen_serves : Serves io (blankIogen io) := by
  refine ⟨fun _ _ => false, fun rows file _ asked => ?_⟩
  have nonempty : file ≠ [] := by
    rintro rfl
    cases asked
  exact ⟨_, if_neg nonempty, (referenceIogen io fun _ _ => false).answers rows file asked⟩

/-- With that simulator the outputs are driven when each simulated one is below the limit and keeps
an input. -/
theorem drivenBy_blank : DrivenBy env io classifyPO upLimit w (blankIogen io) ↔
    ∀ i, classifyPO i ≠ 0 → classifyPO i ≠ 1 →
      upLimit i < 30 ∧ false ∈ stateIn env upLimit w i := by
  let log := w.files (lit "beyond_DummyInfo.log")
  let logEx := w.files (lit "beyond_DummyInfo_ex.log")
  have known : (env.withIogen (blankIogen io)).ioNames = io.names := names
  have below (i : Fin m) (small : upLimit i < 30) :
      Related (env.withIogen (blankIogen io)) upLimit log logEx io i :=
    related_of_serves upLimit io known blankIogen_serves small
  have beyond (i : Fin m) (large : 30 ≤ upLimit i) :
      (env.withIogen (blankIogen io)).iogen (request (env.withIogen (blankIogen io)) upLimit log logEx i) =
        some (decimal n) := if_pos (request_empty upLimit large)
  have answers : Answers (env.withIogen (blankIogen io)) classifyPO upLimit log logEx := by
    intro i _ _
    rcases lt_or_ge (upLimit i) 30 with small | large
    · exact (below i small).answering
    · apply answering_of_eq upLimit (beyond i large)
      rw [words_word (decimal_isWord n), Text.extractNat_decimal]
  refine (drivenBy_iff positive answers).trans
    (circuitText_driven_iff classifyPO upLimit io known fun i _ _ => ?_)
  rcases lt_or_ge (upLimit i) 30 with small | large
  · have condition : (upLimit i < 30 ∧ false ∈ stateIn env upLimit w i) ↔
        false ∈ stateIn env upLimit w i := and_iff_right small
    rw [condition]
    exact (below i small).isBlock
  · have condition : (upLimit i < 30 ∧ false ∈ stateIn env upLimit w i) ↔ False :=
      iff_false_intro fun both => absurd both.1 large.not_gt
    rw [condition]
    exact isBlock_blank upLimit io (beyond i large)

end Tools

/-- For a simulator that answers the pattern files with rows, and outputs below the limit, the first
part of `main` ends, and its file gives each output one driver and has no directive without signals,
exactly when each output that is not constant keeps a real input. For all such simulators it does so
exactly when also each output that is not constant is below the limit. -/
theorem circuit_driven_iff (env : Environment n m) (io : IoNames n m)
    (names : env.ioNames = io.names) (positive : 0 < n) (classifyPO upLimit : Fin m → ℕ)
    (w : World Text Text Counters) :
    (∀ tool, Serves io tool → (∀ i, classifyPO i ≠ 0 → classifyPO i ≠ 1 → upLimit i < 30) →
      (DrivenBy env io classifyPO upLimit w tool ↔
        ∀ i, classifyPO i ≠ 0 → classifyPO i ≠ 1 → false ∈ stateIn env upLimit w i)) ∧
    ((∀ tool, Serves io tool → DrivenBy env io classifyPO upLimit w tool) ↔
      ∀ i, classifyPO i ≠ 0 → classifyPO i ≠ 1 →
        upLimit i < 30 ∧ false ∈ stateIn env upLimit w i) := by
  refine ⟨fun tool served small => drivenBy_small positive names served small, fun all => ?_,
    fun kept tool served => ?_⟩
  · exact (drivenBy_blank positive names).mp (all _ blankIogen_serves)
  · apply (drivenBy_small positive names served fun i zero one => (kept i zero one).1).mpr
    exact fun i zero one => (kept i zero one).2

/-- The simulator answers with the identity, and each ratio has one value. -/
def sampleEnvironment (ratio : ℚ) : Environment 1 1 where
  circuitName := lit "circuit.v"
  ioNames := Synthesis.sampleNames.names
  patternPerMin := 600
  dummyInfo := lit "PO,a,sum\nz,0,0\n"
  dummyInfoEx := lit "PO,a,sum\nz,0,0\n"
  decideUpLimit := fun _ => (fun _ => 1, [])
  iogen := fun file =>
    some ((referenceIogen Synthesis.sampleNames fun x _ => x ⟨0, Nat.zero_lt_one⟩).run file)
  abc := fun _ _ => none
  ncverilog := fun _ _ _ => (none, [])
  atof := fun _ => ratio
  sorts := fun _ _ => SatOpt.stableSort
  hashOrder := fun _ => identityOrder
  rand := id
  time := fun _ => 0
  uninit := fun _ _ => 0
  rounding := TimingFunc.Rounding.exact
  undefined := fun _ => 0
  fuel := 1

/-- The directory after the analysis of the inputs. -/
def sampleDirectory (name : Text) : Option Text :=
  if name = lit "beyond_DummyInfo.log" ∨ name = lit "beyond_DummyInfo_ex.log" then
    some (lit "PO,a,sum\nz,0,0\n")
  else none

theorem sample_served (ratio : ℚ) :
    Serves Synthesis.sampleNames (sampleEnvironment ratio).iogen :=
  ⟨_, fun rows file _ asked => ⟨_, rfl, (referenceIogen Synthesis.sampleNames
    fun x _ => x ⟨0, Nat.zero_lt_one⟩).answers rows file asked⟩⟩

theorem circuit_driven_iff_sample :
    DrivenBy (sampleEnvironment 1) Synthesis.sampleNames (fun _ => 2) (fun _ => 1)
      (startIn sampleDirectory) (sampleEnvironment 1).iogen := by
  refine (circuit_driven_iff (sampleEnvironment 1) Synthesis.sampleNames rfl (by decide) (fun _ => 2)
    (fun _ => 1) (startIn sampleDirectory)).2.mpr ?_ _ (sample_served 1)
  intro i _ _
  obtain rfl : i = 0 := Subsingleton.elim i 0
  exact ⟨by decide, by decide⟩

/-- An output that is not constant and has no positive ratio leaves its net without a driver. -/
theorem circuit_not_driven :
    ∃ realPIToPO v text,
      (do writeBlifHeader (sampleEnvironment 0)
          writeOutputs (sampleEnvironment 0) (fun _ => 2) fun _ => 1) (startIn sampleDirectory) =
        (.ok realPIToPO, v) ∧
      v.files (lit "beyond_circuit.blif") = some text ∧
      ¬ Driven ((List.finRange 1).map fun i => Synthesis.sampleNames.output i ++ lit "_main") text := by
  have related (i : Fin 1) : Related (sampleEnvironment 0) (fun _ => 1)
      (sampleDirectory (lit "beyond_DummyInfo.log")) (sampleDirectory (lit "beyond_DummyInfo_ex.log"))
      Synthesis.sampleNames i :=
    related_of_serves _ Synthesis.sampleNames rfl (sample_served 0) (by decide)
  obtain ⟨realPIToPO, v, returned, written⟩ := writeOutputs_returns (sampleEnvironment 0)
    (fun _ => 2) (fun _ => 1) (by decide) (startIn sampleDirectory) fun i _ _ => (related i).answering
  refine ⟨realPIToPO, v, _, returned, written, fun driven => ?_⟩
  have kept := (circuitText_driven_iff (fun _ => 2) (fun _ => 1) Synthesis.sampleNames rfl
    fun i _ _ => (related i).isBlock).mp driven 0 (by decide) (by decide)
  revert kept
  decide

end LogicRegression.Main
