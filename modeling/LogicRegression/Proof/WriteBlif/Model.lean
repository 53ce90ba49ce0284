import LogicRegression.Library.BlifModel
import LogicRegression.Proof.MixVerilog.Meaning
import LogicRegression.Proof.WriteBlif.Drivers

namespace LogicRegression.WriteBlif

open Text Binary LogicRegression.Cube SatOpt Pattern Synthesis Blif

variable {n m : ℕ} (io : IoNames n m)

/-- The names of the inputs have these values. -/
def Assigns (io : IoNames n m) (assignment : Text → Bool) (x : Fin n → Bool) : Prop :=
  (io.names.take n).map assignment = List.ofFn x

variable {io} in
theorem Assigns.input {assignment : Text → Bool} {x : Fin n → Bool}
    (assigns : Assigns io assignment x) (j : Fin n) : assignment (io.input j) = x j := by
  rw [Assigns, MixVerilog.take_names, List.map_ofFn] at assigns
  exact congrFun (List.ofFn_injective assigns) j

/-- A text of whole lines is one table, which gives the net of an output the values of a function. -/
structure IsTable (i : Fin m) (f : (Fin n → Bool) → Bool) (block : Text) : Prop where
  ended : ∃ body, block = body ++ ['\n']
  starts : ∀ more, Starts (block ++ more)
  table : ∃ names, readNames block = [names] ∧ names.output = mainNet io i ∧
    names.inputs ⊆ io.names.take n ∧ names.WellFormed ∧
    ∀ assignment x, Assigns io assignment x → names.eval assignment = f x

/-- A line with the signals of a table, and its rows. -/
def tableText (signals : List Text) (output : Text) (cubes : List Text) : Text :=
  spaced (lit ".names" :: (signals ++ [output])) ++ '\n' ::
    cubes.flatMap fun cube => cube ++ lit " 1" ++ ['\n']

section Table

variable {signals cubes : List Text} {output : Text}

theorem tableText_ended : ∃ body, tableText signals output cubes = body ++ ['\n'] := by
  have whole := ended_table (spaced (lit ".names" :: (signals ++ [output])))
    (cubes.map (· ++ lit " 1"))
  rwa [List.flatMap_map] at whole

variable (words : ∀ name ∈ signals ++ [output], IsWord name)
include words

theorem tableText_starts (more : Text) : Starts (tableText signals output cubes ++ more) := by
  rw [tableText, List.append_assoc, List.cons_append]
  exact starts_spaced (List.forall_mem_cons.mpr ⟨⟨by decide, by decide⟩, words⟩) rfl _

theorem readNames_tableText {size : ℕ} (isCube : ∀ cube ∈ cubes, IsCube size cube) :
    readNames (tableText signals output cubes) =
      [⟨signals, output, cubes.map fun cube => (cube, ['1'])⟩] := by
  have stop : ((lines []).map Text.words).head?.all isDirective := rfl
  have table := readNames_table (fun name listed => words name (List.mem_append_left _ listed))
    (words output (by simp)) (show isSpace '1' = false by decide) (by decide)
    (fun cube listed c inside => ((isCube cube listed).solid inside).1)
    (fun cube listed dot => ((isCube cube listed).solid dot).2 rfl) stop
  rw [List.append_nil] at table
  exact table

end Table

/-- A constant output has one row without a plane. -/
theorem isTable_constant (i : Fin m) (bit : Bool) :
    IsTable io i (fun _ => bit) (writeBlifConstant n io.names i bit.toNat) := by
  have place : n + i.val < io.names.length := by rw [io.size]; omega
  have output : io.names.getD (n + i) [] = io.output i := (List.getElem_eq_getD (h := place) []).symm
  have header : ∀ w ∈ [lit ".names", mainNet io i], IsWord w :=
    List.forall_mem_cons.mpr ⟨⟨by decide, by decide⟩,
      List.forall_mem_singleton.mpr (mainNet_isWord io i)⟩
  have line : lit ".names " ++ io.output i ++ lit "_main" = spaced [lit ".names", mainNet io i] := by
    rw [spaced_cons, List.flatMap_singleton, mainNet, List.append_assoc]
    rfl
  have text : writeBlifConstant n io.names i bit.toNat =
      spaced [lit ".names", mainNet io i] ++ '\n' :: (decimal bit.toNat ++ ['\n']) := by
    rw [writeBlifConstant, output, line]
  have row : (lines (decimal bit.toNat ++ ['\n'])).map words = [[decimal bit.toNat]] := by
    cases bit <;> decide
  have plain : ∀ row ∈ [[decimal bit.toNat]], isDirective row = false := by
    cases bit <;> decide
  have read : readNames (writeBlifConstant n io.names i bit.toNat) =
      [⟨[], mainNet io i, [([], decimal bit.toNat)]⟩] := by
    have table := blocks_names [] (mainNet io i) _ [] plain rfl
    rw [text, readNames, lines_append_cons (newline_notMem_spaced header), List.map_cons,
      words_spaced header, row]
    exact table
  refine ⟨⟨spaced [lit ".names", mainNet io i] ++ '\n' :: decimal bit.toNat, by rw [text]; simp⟩,
    fun more => ?_, _, read, rfl, List.nil_subset _, ⟨?_, ?_, ?_⟩, fun assignment x _ => ?_⟩
  · rw [text, List.append_assoc, List.cons_append]
    exact starts_spaced header rfl _
  · simp
  · simp
  · cases bit
    · exact .inr (List.forall_mem_singleton.mpr (show decimal 0 = ['0'] by decide))
    · exact .inl (List.forall_mem_singleton.mpr (show decimal 1 = ['1'] by decide))
  · have applies : Names.applies ⟨[], mainNet io i, [([], decimal bit.toNat)]⟩ assignment
        ([], decimal bit.toNat) = true := decide_eq_true List.Forall₂.nil
    cases bit
    · exact (congrArg (fun applied => !(applied || false)) applies).trans rfl
    · exact (congrArg (fun applied => applied || false) applies).trans rfl

/-- The table of an output that is simulated has the values of the golden function with the other
inputs at one. -/
theorem isTable_golden (sorts : ℕ → StdSort) (hashOrder : HashOrder) (iogen : Iogen io) (i : Fin m)
    {upLimit : ℕ} (small : upLimit ≤ 29) {real : Finset (Fin n)} (nonempty : real.Nonempty)
    (fits : real.card ≤ upLimit) {inPat : Text}
    (written : words inPat = patternWords io.names (tableRows (piStateOf real) upLimit)) :
    IsTable io i (fun x => iogen.golden (dummiesAtOne real x) i)
      (writeBlif (satOptimization sorts hashOrder (iogen.run inPat)
        (dummyPI (List.ofFn (piStateOf real))) i)) := by
  obtain ⟨grown, traversed⟩ := golden_traversed sorts hashOrder (fun x => iogen.golden x i)
    small nonempty fits
  let cubes := grown.map Prod.snd
  have isCube : ∀ cube ∈ cubes, IsCube real.card cube := by
    intro cube listed
    obtain ⟨pair, inside, rfl⟩ := List.mem_map.mp listed
    exact ⟨(traversed.good pair inside).size, (traversed.good pair inside).values⟩
  have results : resultPatterns sorts real.card
      (goldenMap hashOrder real upLimit fun x => iogen.golden x i)
      (goldenOrder real upLimit fun x => iogen.golden x i) = cubes.map (· ++ ['1']) := by
    rw [resultPatterns, traversed.results, List.map_map]
    rfl
  have text : writeBlif (satOptimization sorts hashOrder (iogen.run inPat)
      (dummyPI (List.ofFn (piStateOf real))) i) =
        tableText ((realInputs real).map io.input) (mainNet io i) cubes := by
    rw [satOptimization_golden sorts hashOrder iogen i written, results]
    exact writeBlif_cubes io i nonempty (fun cube listed => (isCube cube listed).size)
      fun cube listed c inside => ((isCube cube listed).solid inside).1
  have signalWords : ∀ name ∈ (realInputs real).map io.input ++ [mainNet io i], IsWord name := by
    intro name listed
    rcases List.mem_append.mp listed with input | last
    · exact realInputs_isWord io real name input
    · rw [List.mem_singleton.mp last]
      exact mainNet_isWord io i
  rw [text]
  refine ⟨tableText_ended, tableText_starts signalWords, _,
    readNames_tableText signalWords isCube, rfl, ?_, ⟨?_, ?_, .inl ?_⟩, fun assignment x assigns => ?_⟩
  · intro name listed
    obtain ⟨j, -, rfl⟩ := List.mem_map.mp listed
    rw [MixVerilog.take_names]
    exact List.mem_ofFn.mpr ⟨j, rfl⟩
  · intro cube listed
    obtain ⟨plane, inside, rfl⟩ := List.mem_map.mp listed
    rw [List.length_map, realInputs_length]
    exact (isCube plane inside).size
  · intro cube listed
    obtain ⟨plane, inside, rfl⟩ := List.mem_map.mp listed
    exact (isCube plane inside).values
  · simp
  · have inputs : ((realInputs real).map io.input).map (fun input => bitChar (assignment input)) =
        keyOf real x := by
      rw [List.map_map, keyOf]
      exact List.map_congr_left fun j _ => congrArg bitChar (assigns.input j)
    rw [Names.eval_onset (by simp), Bool.eq_iff_iff, List.any_map, List.any_eq_true]
    simp only [Function.comp_apply, Names.applies, inputs, decide_eq_true_eq]
    exact covered_iff_golden (fun x => iogen.golden x i) fits traversed x

/-- The three lines in front of the tables. -/
def headerText (name : Text) (inputs outputs : List Text) (rest : Text) : Text :=
  spaced [lit ".model", name] ++ '\n' :: (spaced (lit ".inputs" :: inputs) ++ '\n' ::
    (spaced (lit ".outputs" :: outputs) ++ '\n' :: rest))

section Header

variable {name : Text} {inputs outputs : List Text} (rest : Text) (nameWord : IsWord name)
  (inputWords : ∀ w ∈ inputs, IsWord w) (outputWords : ∀ w ∈ outputs, IsWord w)
include nameWord inputWords outputWords

/-- The lines of the header are read back, and they are passed over by the reader of the tables. -/
theorem headerText_read :
    header (lit ".model") (headerText name inputs outputs rest) = [name] ∧
      header (lit ".inputs") (headerText name inputs outputs rest) = inputs ∧
      header (lit ".outputs") (headerText name inputs outputs rest) = outputs ∧
      readNames (headerText name inputs outputs rest) = readNames rest := by
  have directive {w : Text} (word : IsWord w) {ws : List Text} (all : ∀ v ∈ ws, IsWord v) :
      ∀ v ∈ w :: ws, IsWord v := List.forall_mem_cons.mpr ⟨word, all⟩
  have model := directive (w := lit ".model") ⟨by decide, by decide⟩
    (List.forall_mem_singleton.mpr nameWord)
  have input := directive (w := lit ".inputs") ⟨by decide, by decide⟩ inputWords
  have output := directive (w := lit ".outputs") ⟨by decide, by decide⟩ outputWords
  refine ⟨?_, ?_, ?_, ?_⟩
  · rw [headerText, header_spaced model]
  · rw [headerText, header_skip model (by decide), header_spaced input]
  · rw [headerText, header_skip model (by decide), header_skip input (by decide),
      header_spaced output]
  · rw [headerText, readNames_skip_spaced model (by decide), readNames_skip_spaced input (by decide),
      readNames_skip_spaced output (by decide)]

end Header

theorem writeBlifHeader_eq (rest : Text) : writeBlifHeader n m io.names ++ rest =
    headerText (lit "main_circuit") (io.names.take n) (List.ofFn (mainNet io)) rest := by
  have modelLine : lit ".model main_circuit" = spaced [lit ".model", lit "main_circuit"] := by
    decide
  have outputs : ((io.names.drop n).take m).flatMap (fun name => ' ' :: name ++ lit "_main") =
      (List.ofFn (mainNet io)).flatMap fun name => ' ' :: name := by
    have nets : mainNet io = (· ++ lit "_main") ∘ io.output := rfl
    rw [MixVerilog.drop_names, nets, ← List.map_ofFn, List.flatMap_map]
    rfl
  rw [writeBlifHeader, modelLine, outputs, headerText, spaced_cons (lit ".inputs"),
    spaced_cons (lit ".outputs")]
  simp only [List.append_assoc, List.cons_append, List.nil_append]

/-- The header, a table for each output and the end describe the main circuit. -/
theorem describes_circuit {f : (Fin n → Bool) → Fin m → Bool} {block : Fin m → Text}
    (isTable : ∀ i, IsTable io i (fun x => f x i) (block i)) :
    Describes (writeBlifHeader n m io.names ++ (List.finRange m).flatMap block ++ writeBlifEnd)
      (lit "main_circuit") (io.names.take n) (List.ofFn (mainNet io)) f := by
  have outputWords : ∀ w ∈ List.ofFn (mainNet io), IsWord w := by
    intro w listed
    obtain ⟨i, rfl⟩ := List.mem_ofFn.mp listed
    exact mainNet_isWord io i
  have word : IsWord (lit "main_circuit") := ⟨by decide, by decide⟩
  have read := headerText_read ((List.finRange m).flatMap block ++ writeBlifEnd) word io.inputWords
    outputWords
  rw [← writeBlifHeader_eq, ← List.append_assoc] at read
  obtain ⟨model, inputs, outputs, tables⟩ := read
  have stop : Starts writeBlifEnd :=
    show ((lines writeBlifEnd).map words).head?.all isDirective = true by decide
  have finish : readNames writeBlifEnd = [] := by decide
  choose names single output support wellFormed evaluates using fun i => (isTable i).table
  rw [readNames_flatMap (fun i _ => (isTable i).ended) (fun i _ => (isTable i).starts) stop, finish,
    List.append_nil] at tables
  have all : readNames (writeBlifHeader n m io.names ++ (List.finRange m).flatMap block ++
      writeBlifEnd) = (List.finRange m).map names := by
    rw [tables, List.map_eq_flatMap]
    exact List.flatMap_congr fun i _ => single i
  have outputNames : (readNames (writeBlifHeader n m io.names ++ (List.finRange m).flatMap block ++
      writeBlifEnd)).map Names.output = List.ofFn (mainNet io) := by
    rw [all, List.map_map, List.ofFn_eq_map]
    exact List.map_congr_left fun i _ => output i
  refine ⟨⟨model, inputs, outputs, outputNames, ?_, ?_⟩, fun assignment x assigns => ?_⟩
  · rw [all, List.forall_mem_map]
    exact fun i _ => support i
  · rw [all, List.forall_mem_map]
    exact fun i _ => wellFormed i
  · have distinct : ((readNames (writeBlifHeader n m io.names ++ (List.finRange m).flatMap block ++
        writeBlifEnd)).map Names.output).Nodup := by
      rw [outputNames]
      exact List.nodup_ofFn.mpr (mainNet_injective io)
    rw [List.map_ofFn]
    congr 1
    funext i
    have listed : names i ∈ readNames (writeBlifHeader n m io.names ++
        (List.finRange m).flatMap block ++ writeBlifEnd) := by
      rw [all]
      exact List.mem_map_of_mem (List.mem_finRange i)
    have own := value_eq distinct listed assignment
    rw [output i, evaluates i assignment x assigns] at own
    exact own

end LogicRegression.WriteBlif
