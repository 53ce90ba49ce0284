import LogicRegression.Proof.Main.Circuit
import LogicRegression.Proof.Main.Frame
import LogicRegression.Proof.WriteBlif.Model

namespace LogicRegression.Main

open Text Program Pattern Synthesis Blif WriteBlif

variable {n m : ℕ}

/-- The function of the first circuit: a classified output is constant, every other output has the
golden value of the vector with all inputs but the kept ones at one. -/
def firstFunction {io : IoNames n m} (iogen : Iogen io) (atof : Text → ℚ)
    (classifyPO upLimit : Fin m → ℕ) (log : Option Text) (x : Fin n → Bool) (i : Fin m) : Bool :=
  if classifyPO i = 0 then false
  else if classifyPO i = 1 then true
  else iogen.golden (dummiesAtOne (keptPI n atof i (upLimit i) log) x) i

/-- The real inputs that the first loop collects for one output. -/
def collectedPI (env : Environment n m) (classifyPO : Fin m → ℕ) (logEx : Option Text) (i : Fin m) :
    List (Fin n) :=
  if classifyPO i = 0 ∨ classifyPO i = 1 then List.finRange n
  else (infoSet env.atof i logEx).insertionSort (· ≤ ·)

/-- An output that is not constant keeps some inputs, and not too many for a truth table. -/
structure Tabulated (env : Environment n m) (classifyPO upLimit : Fin m → ℕ) (log : Option Text)
    (i : Fin m) : Prop where
  small : classifyPO i ≠ 0 → classifyPO i ≠ 1 → upLimit i ≤ 29
  kept : classifyPO i ≠ 0 → classifyPO i ≠ 1 → (keptPI n env.atof i (upLimit i) log).Nonempty

section Text

variable {env : Environment n m} {io : IoNames n m} (names : env.ioNames = io.names)
  (iogen : Iogen io) (served : iogen.RunBy env.iogen) {classifyPO upLimit : Fin m → ℕ}
  {log logEx : Option Text}
include names served

/-- Below the limit the simulator answers the file of an output. -/
theorem request_answered {i : Fin m} (small : upLimit i < 30) :
    env.iogen (request env upLimit log logEx i) = some (iogen.run (request env upLimit log logEx i)) := by
  exact served _ _ (requestRows_ne_nil upLimit i) (request_words upLimit io names small)

theorem answers_of_tabulated (tabulated : ∀ i, Tabulated env classifyPO upLimit log i) :
    Answers env classifyPO upLimit log logEx := by
  intro i zero one
  have small : upLimit i < 30 := Nat.lt_succ_of_le ((tabulated i).small zero one)
  have asked : words (request env upLimit log logEx i) = _ := request_words upLimit io names small
  exact answering_of_eq upLimit (request_answered names iogen served small)
    (counted_of_relation io (iogen.answers _ _ asked))

/-- The text of each output is one table with the values of the first circuit. -/
theorem outputText_isTable {i : Fin m} (tabulated : Tabulated env classifyPO upLimit log i) :
    IsTable io i (fun x => firstFunction iogen env.atof classifyPO upLimit log x i)
      (outputText env classifyPO upLimit log logEx i) := by
  simp only [outputText, firstFunction]
  by_cases zero : classifyPO i = 0
  · simp only [if_pos zero, names]
    exact isTable_constant io i false
  · by_cases one : classifyPO i = 1
    · simp only [if_neg zero, if_pos one, names]
      exact isTable_constant io i true
    · have small := tabulated.small zero one
      have below : upLimit i < 30 := Nat.lt_succ_of_le small
      have state : piState env upLimit log logEx i = _ :=
        readInfo_piState n env.atof i (upLimit i) log logEx
      simp only [if_neg zero, if_neg one, tableText, answer,
        request_answered names iogen served below, Option.getD_some, state]
      exact isTable_golden io (env.sorts i) (env.hashOrder i) iogen i small (tabulated.kept zero one)
        (keptPI_card n env.atof i (upLimit i) log) (request_words upLimit io names below)

theorem circuitText_describes (tabulated : ∀ i, Tabulated env classifyPO upLimit log i) :
    Describes (circuitText env classifyPO upLimit log logEx) (lit "main_circuit") (io.names.take n)
      (List.ofFn (mainNet io)) (firstFunction iogen env.atof classifyPO upLimit log) := by
  have tables (i : Fin m) : IsTable io i
      (fun x => firstFunction iogen env.atof classifyPO upLimit log x i)
      (outputText env classifyPO upLimit log logEx i) :=
    outputText_isTable names iogen served (tabulated i)
  rw [circuitText, names]
  exact describes_circuit io tables

end Text

section Lists

variable (env : Environment n m) {log logEx : Option Text} {text : Text}

/-- The generator returns the real inputs of the second log. -/
theorem patternsGeneration_realPI (positive : 0 < n) (i : Fin m) (upLimit : ℕ) :
    Ensures (fun w => Written log logEx text w.files) (patternsGeneration env i upLimit)
      fun lists _ => lists.2 = (infoSet env.atof i logEx).insertionSort (· ≤ ·) := by
  rw [patternsGeneration, if_pos positive]
  refine Ensures.bind (tick_returns env.time).ensures fun _ => ?_
  apply Ensures.observed
  intro w written
  apply Ensures.observed
  rintro _ rfl
  rw [written.logEx]
  refine Ensures.bind (Ensures.anything _) fun count => ?_
  refine Ensures.bind (Ensures.anything _) fun _ => ?_
  split
  · exact Ensures.stop _
  · refine Ensures.bind (Ensures.anything _) fun _ => ?_
    refine Ensures.bind (Ensures.anything _) fun _ => ?_
    exact Ensures.pure _ fun _ _ => rfl

variable (classifyPO upLimit : Fin m → ℕ)

/-- One round of the first loop adds the real inputs of its output. -/
theorem writeOutput_realPI (positive : 0 < n) (realPIToPO : List (List (Fin n))) (i : Fin m) :
    Ensures (fun w => Written log logEx text w.files)
      (writeOutput env classifyPO upLimit realPIToPO i)
      fun lists _ => lists = realPIToPO ++ [collectedPI env classifyPO logEx i] := by
  rw [writeOutput]
  split
  · next zero =>
      refine Ensures.bind (Ensures.anything _) fun _ => ?_
      have own : collectedPI env classifyPO logEx i = List.finRange n := if_pos (.inl zero)
      exact Ensures.pure _ fun _ _ => by rw [own]
  · next zero =>
      split
      · next one =>
          refine Ensures.bind (Ensures.anything _) fun _ => ?_
          have own : collectedPI env classifyPO logEx i = List.finRange n := if_pos (.inr one)
          exact Ensures.pure _ fun _ _ => by rw [own]
      · next one =>
          refine Ensures.bind (patternsGeneration_realPI env positive i (upLimit i)) ?_
          rintro ⟨dummyPI, realPI⟩
          have rest : realPI = (infoSet env.atof i logEx).insertionSort (· ≤ ·) →
              Ensures (fun _ => True)
                (do satOptimization env dummyPI i; writeBlif; return realPIToPO ++ [realPI])
                fun lists _ => lists = realPIToPO ++ [collectedPI env classifyPO logEx i] := by
            intro same
            refine Ensures.bind (Ensures.anything _) fun _ => ?_
            refine Ensures.bind (Ensures.anything _) fun _ => ?_
            have own : collectedPI env classifyPO logEx i = realPI :=
              (if_neg (not_or.mpr ⟨zero, one⟩)).trans same.symm
            exact Ensures.pure _ fun _ _ => by rw [own]
          exact fun w same => rest same w trivial

/-- The loop ends; it collects the real inputs of all outputs and writes the tables. -/
theorem writeOutputs_collects (positive : 0 < n) (answers : Answers env classifyPO upLimit log logEx) :
    Returns (fun w => Written log logEx text w.files) (writeOutputs env classifyPO upLimit)
      fun lists w => lists = (List.finRange m).map (collectedPI env classifyPO logEx) ∧
        Written log logEx (text ++ (List.finRange m).flatMap
          (outputText env classifyPO upLimit log logEx) ++ WriteBlif.writeBlifEnd) w.files := by
  let I (done : List (Fin m)) (lists : List (List (Fin n))) (v : World Text Text Counters) : Prop :=
    lists = done.map (collectedPI env classifyPO logEx) ∧
      Written log logEx (text ++ done.flatMap (outputText env classifyPO upLimit log logEx)) v.files
  have step (done : List (Fin m)) (i : Fin m) (_ : done ++ [i] <+: List.finRange m)
      (lists : List (List (Fin n))) :
      Returns (I done lists) (writeOutput env classifyPO upLimit lists i) (I (done ++ [i])) := by
    apply Returns.fact
    rintro rfl
    simp only [I, List.map_append, List.map_singleton, List.flatMap_append, List.flatMap_singleton,
      ← List.append_assoc]
    exact ((writeOutput_returns env classifyPO upLimit log logEx i positive answers _).and
      (writeOutput_realPI env classifyPO upLimit positive _ i)).weaken (fun _ start => start)
        fun _ _ both => ⟨both.2, both.1⟩
  refine Returns.bind ((Returns.foldlM step []).weaken (fun w written => ⟨rfl, ?_⟩)
    fun lists w collected => collected) fun lists => ?_
  · rwa [List.flatMap_nil, List.append_nil]
  · apply Returns.fact
    intro same
    apply Returns.bind (appendFile_returns _)
    exact fun _ => Returns.pure _ fun _ written => ⟨same, written⟩

end Lists

/-- For a simulator that answers pattern files, and outputs that are constant or keep at least one and
at most 29 inputs, the first loop ends. It has collected the real inputs of all outputs, and its file
describes a circuit with the values of the first function. -/
theorem circuit_describes (env : Environment n m) (io : IoNames n m) (names : env.ioNames = io.names)
    (positive : 0 < n) (iogen : Iogen io) (served : iogen.RunBy env.iogen)
    (classifyPO upLimit : Fin m → ℕ) (w : World Text Text Counters)
    (tabulated : ∀ i, Tabulated env classifyPO upLimit (w.files (lit "beyond_DummyInfo.log")) i) :
    ∃ v text, (do writeBlifHeader env; writeOutputs env classifyPO upLimit) w =
        (.ok ((List.finRange m).map
          (collectedPI env classifyPO (w.files (lit "beyond_DummyInfo_ex.log")))), v) ∧
      v.files (lit "beyond_circuit.blif") = some text ∧
      Describes text (lit "main_circuit") (io.names.take n) (List.ofFn (mainNet io))
        (firstFunction iogen env.atof classifyPO upLimit (w.files (lit "beyond_DummyInfo.log"))) := by
  have header : Returns (· = w) (writeBlifHeader env) fun _ v =>
      Written (w.files (lit "beyond_DummyInfo.log")) (w.files (lit "beyond_DummyInfo_ex.log"))
        (WriteBlif.writeBlifHeader n m env.ioNames) v.files := by
    apply Returns.update
    rintro _ rfl
    exact ⟨World.write_files_of_ne (by decide) _ _, World.write_files_of_ne (by decide) _ _,
      World.write_files_self _ _ _⟩
  have answers : Answers env classifyPO upLimit _ (w.files (lit "beyond_DummyInfo_ex.log")) :=
    answers_of_tabulated names iogen served tabulated
  obtain ⟨lists, v, returned, rfl, written⟩ := Returns.bind header
    (fun _ => writeOutputs_collects env classifyPO upLimit positive answers) w rfl
  exact ⟨v, _, returned, written.circuit, circuitText_describes names iogen served tabulated⟩

theorem circuit_describes_sample :
    ∃ v text, (do writeBlifHeader (sampleEnvironment 1)
                  writeOutputs (sampleEnvironment 1) (fun _ => 2) fun _ => 1)
        (startIn sampleDirectory) = (.ok ((List.finRange 1).map (collectedPI (sampleEnvironment 1)
          (fun _ => 2) (sampleDirectory (lit "beyond_DummyInfo_ex.log")))), v) ∧
      v.files (lit "beyond_circuit.blif") = some text ∧
      Describes text (lit "main_circuit") [lit "a"] (List.ofFn (mainNet Synthesis.sampleNames))
        (firstFunction (referenceIogen Synthesis.sampleNames fun x _ => x 0) (fun _ => 1)
          (fun _ => 2) (fun _ => 1) (sampleDirectory (lit "beyond_DummyInfo.log"))) := by
  refine circuit_describes (sampleEnvironment 1) Synthesis.sampleNames rfl (by decide)
    (referenceIogen Synthesis.sampleNames fun x _ => x 0) (fun _ _ _ _ => rfl) (fun _ => 2) (fun _ => 1)
    (startIn sampleDirectory) fun i => ?_
  obtain rfl : i = 0 := Subsingleton.elim i 0
  refine ⟨fun _ _ => by decide, fun _ _ => ?_⟩
  rw [← false_mem_piState 1 _ _ _ _ none]
  decide

end LogicRegression.Main
