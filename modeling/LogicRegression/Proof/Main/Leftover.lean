import LogicRegression.Proof.ClassifyOutput.Constant
import LogicRegression.Proof.Main.Circuit
import LogicRegression.Proof.Main.Flags
import LogicRegression.Proof.Verilog.Format

namespace LogicRegression.Main

open Text Program

variable {n m : ℕ}

/-- The fault flags are those of an earlier run, and these files have these contents. -/
structure Watched (before : Fin m → Fin 2 → Bool) (known : List (Text × Option Text))
    (files : Text → Option Text) : Prop where
  flags : ∀ j c, flag files j c = before j c
  contents : ∀ entry ∈ known, files entry.1 = entry.2

variable {before : Fin m → Fin 2 → Bool} {known : List (Text × Option Text)}

theorem flags_write {files : Text → Option Text} (flags : ∀ j c, flag files j c = before j c)
    {name : Text} (apart : name ∉ faultFiles m) (content : Text) :
    ∀ j c, flag (Function.update files name (some content)) j c = before j c := by
  intro j c
  have different : faultFile j c (lit ".blif") ≠ name := fun same =>
    apart (same ▸ faultFile_mem j c)
  rw [flag, Function.update_of_ne different]
  exact flags j c

/-- A file that is neither a fault file nor a known one does not matter. -/
theorem Watched.write {files : Text → Option Text} (watched : Watched before known files)
    {name : Text} (apart : name ∉ faultFiles m) (other : name ∉ known.map Prod.fst) (content : Text) :
    Watched before known (Function.update files name (some content)) where
  flags := flags_write watched.flags apart content
  contents entry listed := by
    have different : entry.1 ≠ name := fun same => other (same ▸ List.mem_map_of_mem listed)
    rw [Function.update_of_ne different]
    exact watched.contents entry listed

/-- From now on the written file is known. -/
theorem Watched.watch {files : Text → Option Text} (watched : Watched before known files)
    {name : Text} (apart : name ∉ faultFiles m) (other : name ∉ known.map Prod.fst) (content : Text) :
    Watched before ((name, some content) :: known) (Function.update files name (some content)) where
  flags := flags_write watched.flags apart content
  contents := by
    rw [List.forall_mem_cons]
    exact ⟨Function.update_self _ _ _, (watched.write apart other content).contents⟩

theorem Watched.mono {files : Text → Option Text} (watched : Watched before known files)
    {less : List (Text × Option Text)} (subset : less ⊆ known) : Watched before less files :=
  ⟨watched.flags, fun entry listed => watched.contents entry (subset listed)⟩

/-- A stage that ends and keeps what is watched. -/
abbrev Passes {A : Type} (before : Fin m → Fin 2 → Bool) (known : List (Text × Option Text))
    (stage : Stage A) : Prop :=
  Returns (fun w => Watched before known w.files) stage fun _ w => Watched before known w.files

section Stages

theorem writeFile_passes {name : Text} (apart : name ∉ faultFiles m)
    (other : name ∉ known.map Prod.fst) (content : Text) :
    Passes before known (writeFile name content : Stage Unit) :=
  Returns.update _ fun _ watched => watched.write apart other content

theorem writeFile_watched {name : Text} (apart : name ∉ faultFiles m)
    (other : name ∉ known.map Prod.fst) (content : Text) :
    Returns (fun w => Watched before known w.files) (writeFile name content : Stage Unit)
      fun _ w => Watched before ((name, some content) :: known) w.files :=
  Returns.update _ fun _ watched => watched.watch apart other content

theorem readFile_passes (name : Text) :
    Passes before known (readFile name : Stage (Option Text)) :=
  Returns.observe _ fun _ watched => watched

theorem appendFile_passes {name : Text} (apart : name ∉ faultFiles m)
    (other : name ∉ known.map Prod.fst) (text : Text) : Passes before known (appendFile name text) := by
  apply Returns.bind (readFile_passes name)
  intro old
  exact writeFile_passes apart other _

/-- From now on the answer of the tool is known. -/
theorem runTool_watched {tool : Text → Option Text} {answer : Text}
    (fixed : ∀ file, tool file = some answer) (input : Text) {output : Text}
    (apart : output ∉ faultFiles m) (other : output ∉ known.map Prod.fst) :
    Returns (fun w => Watched before known w.files) (runTool tool input output)
      fun _ w => Watched before ((output, some answer) :: known) w.files := by
  apply Returns.bind (readFile_passes input)
  intro text
  rw [fixed]
  exact writeFile_watched apart other answer

/-- A known text without short lines is rewritten to the end. -/
theorem modifyVerilogFormat_watched {readVerilogName writeVerilogName text : Text}
    (listed : (readVerilogName, some text) ∈ known) (different : readVerilogName ≠ writeVerilogName)
    (noShort : Verilog.NoShort text) (apart : writeVerilogName ∉ faultFiles m)
    (other : writeVerilogName ∉ known.map Prod.fst) :
    Returns (fun w => Watched before known w.files)
      (modifyVerilogFormat readVerilogName writeVerilogName) fun _ w =>
        Watched before ((writeVerilogName, some (Verilog.modifyVerilogFormat text)) :: known) w.files := by
  apply Returns.readFile fun files watched => watched.contents _ listed
  rw [if_neg different, Option.getD_some, modifyLines, if_neg (Bool.eq_false_iff.mp noShort)]
  apply Returns.bind (writeFile_watched apart other _)
  exact fun _ => Returns.pure _ fun _ watched => watched

/-- From now on the file of the optimiser is known. -/
theorem abcOptimization_watched (env : Environment n m) (readBlifName : Text)
    {writeVerilogName circuit : Text} (fixed : ∀ script file, env.abc script file = some circuit)
    (script : lit "beyond_run.script" ∉ known.map Prod.fst) (apart : writeVerilogName ∉ faultFiles m)
    (other : writeVerilogName ∉ known.map Prod.fst) :
    Returns (fun w => Watched before known w.files)
      (abcOptimization env readBlifName writeVerilogName) fun _ w =>
        Watched before ((writeVerilogName, some circuit) :: known) w.files := by
  apply Returns.bind (readFile_passes readBlifName)
  intro text
  apply Returns.bind (writeFile_passes (notMem_faultFiles (by decide)) script _)
  intro _
  exact runTool_watched (fixed _) readBlifName apart other

/-- The flags are inferred from the files that were there before the run. -/
theorem mixVerilog_watched (env : Environment n m) {circuit mixed : Text}
    (fixed : ∀ script file, env.abc script file = some circuit)
    (holds : ∀ files, Watched before known files →
      MixVerilog.mixCircuit files env.ioNames n m = mixed) (noShort : Verilog.NoShort mixed) :
    Returns (fun w => Watched before known w.files) (mixVerilog env) fun status w =>
      status = (fun j => (before j 0, before j 1)) ∧
        Watched before [(lit "beyond_after_flatten_circuit.v", some circuit),
          (lit "beyond_mix_circuit.v", some mixed)] w.files := by
  have read : Returns (fun w => Watched before known w.files)
      (observe fun w (j : Fin m) => MixVerilog.faultStatus w.files j : Stage (Fin m → Bool × Bool))
      fun status w => status = (fun j => (before j 0, before j 1)) ∧
        Watched before known w.files := by
    apply Returns.observe
    intro w watched
    refine ⟨?_, watched⟩
    funext j
    exact Prod.ext (watched.flags j 0) (watched.flags j 1)
  have rendered : Returns (fun w => Watched before known w.files)
      (observe fun w => MixVerilog.mixCircuit w.files env.ioNames n m : Stage Text)
      fun text w => text = mixed ∧ Watched before [] w.files :=
    Returns.observe _ fun w watched => ⟨holds w.files watched, watched.mono (List.nil_subset _)⟩
  apply Returns.bind read
  intro status
  apply Returns.fact
  intro inferred
  apply Returns.bind rendered
  intro text
  apply Returns.fact
  rintro rfl
  apply Returns.bind (writeFile_watched (notMem_faultFiles (by decide)) (by decide) _)
  intro _
  apply Returns.bind (modifyVerilogFormat_watched List.mem_cons_self (by decide) noShort
    (notMem_faultFiles (by decide)) (by simp +decide))
  intro _
  apply Returns.bind (writeFile_passes (notMem_faultFiles (by decide)) (by simp +decide) _)
  intro _
  apply Returns.bind (runTool_watched (fixed _) _ (notMem_faultFiles (by decide)) (by simp +decide))
  intro _
  exact Returns.pure _ fun _ watched => ⟨inferred, watched.mono (by simp)⟩

end Stages

section Constant

/-- The names of eighteen inputs and one output. -/
def constantNames : IoNames 18 1 where
  names := (lit "abcdefghijklmnopqrz").map fun c => [c]
  size := rfl
  words := by
    intro name listed
    obtain ⟨c, inside, rfl⟩ := List.mem_map.mp listed
    have solid : ∀ c ∈ lit "abcdefghijklmnopqrz", isSpace c = false := by decide
    refine ⟨List.cons_ne_nil _ _, fun d own => ?_⟩
    rw [List.mem_singleton.mp own]
    exact solid c inside
  distinct := by decide

/-- The optimiser writes this circuit for an output that is constantly zero. -/
def constantCircuit : Text :=
  lit "module main_circuit (
    a, b, c, d, e, f, g, h, i, j, k, l, m, n, o, p, q, r,
" ++
    lit "    z_main );
  input a, b, c, d, e, f, g, h, i, j, k, l, m, n, o, p, q, r;
" ++
    lit "  output z_main;
  zero g0(.O(z_main));
endmodule
"

/-- The only output is constantly zero, and the random numbers count through the rows. -/
def constantEnvironment : Environment 18 1 where
  circuitName := lit "circuit.v"
  ioNames := constantNames.names
  patternPerMin := 600
  dummyInfo := []
  dummyInfoEx := []
  decideUpLimit := fun _ => (fun _ => 0, [])
  iogen := fun file => some ((referenceIogen constantNames fun _ _ => false).run file)
  abc := fun _ _ => some constantCircuit
  ncverilog := fun _ _ _ => (some [], [])
  atof := fun _ => 0
  sorts := fun _ _ => SatOpt.stableSort
  hashOrder := fun _ => Synthesis.identityOrder
  rand := fun k => k / 18 / 2 ^ (k % 18)
  time := fun _ => 0
  uninit := fun _ _ => 0
  rounding := TimingFunc.Rounding.exact
  undefined := fun _ => 0
  fuel := ClassifyOutput.patternNums + 1

/-- The row of a draw has the bits of its number. -/
theorem sampleRow_constant (k : ℕ) (j : Fin 18) :
    ClassifyOutput.sampleRow constantEnvironment.rand (k * 18) j = k.testBit j := by
  have row : (k * 18 + j) / 18 = k := by omega
  have column : (k * 18 + j) % 18 = j := by omega
  rw [ClassifyOutput.sampleRow]
  change FixNetwork.plainBit ((k * 18 + j) / 18 / 2 ^ ((k * 18 + j) % 18)) = _
  rw [row, column, FixNetwork.plainBit, Nat.testBit_eq_decide_div_mod_eq]

theorem firstRows_constant :
    (ClassifyOutput.firstRows constantEnvironment.rand 18 ClassifyOutput.patternNums).Nodup := by
  apply List.Nodup.map_on _ List.nodup_range
  intro k inside l other same
  have small {k : ℕ} (inside : k ∈ List.range ClassifyOutput.patternNums) : k < 2 ^ 18 :=
    (List.mem_range.mp inside).trans (by decide)
  apply Nat.eq_of_testBit_eq
  intro j
  by_cases place : j < 18
  · have bits := congrFun same ⟨j, place⟩
    rw [sampleRow_constant, sampleRow_constant] at bits
    exact bits
  · have above : 2 ^ 18 ≤ 2 ^ j := Nat.pow_le_pow_right (by decide) (by omega)
    rw [Nat.testBit_lt_two_pow ((small inside).trans_le above),
      Nat.testBit_lt_two_pow ((small other).trans_le above)]

/-- The sampling ends with the rows of the first draws. -/
theorem sampleLoop_constant :
    ClassifyOutput.sampleLoop constantEnvironment.rand ClassifyOutput.patternNums
      constantEnvironment.fuel 0 ([] : List (Fin 18 → Bool)) =
        some (ClassifyOutput.firstRows constantEnvironment.rand 18 ClassifyOutput.patternNums,
          ClassifyOutput.patternNums * 18) := by
  have first := ClassifyOutput.sampleLoop_first firstRows_constant (Nat.zero_le _)
  rw [Nat.zero_mul, Nat.sub_zero] at first
  exact first

/-- There is no Verilog file of the first list of faults. -/
abbrev Unknown (before : Fin m → Fin 2 → Bool) (files : Text → Option Text) : Prop :=
  Watched before [(lit "beyond_PO0fault0.v", none)] files

/-- The output is classified as constantly zero. -/
theorem checkConstOutput_watched : Returns
    (fun w => w.inner.draws = 0 ∧ Unknown before w.files)
    (checkConstOutput constantEnvironment) fun classifyPO w =>
      classifyPO = (fun _ => 0) ∧ Unknown before w.files := by
  have ticked : Returns (fun w => w.inner.draws = 0 ∧ Unknown before w.files)
      (tick constantEnvironment.time) fun _ w =>
        w.inner.draws = 0 ∧ Unknown before w.files := by
    intro w start
    exact ⟨_, _, rfl, start⟩
  let rows := ClassifyOutput.firstRows constantEnvironment.rand 18 ClassifyOutput.patternNums
  let inPat := ClassifyOutput.constInPat constantEnvironment.ioNames rows
  let ioRel := (referenceIogen constantNames fun _ _ => false).run inPat
  let Asked (files : Text → Option Text) : Prop := Unknown before files ∧
    files (lit "beyond_classify_constant_in_pat.txt") = some inPat
  let Related (files : Text → Option Text) : Prop := Unknown before files ∧
    files (lit "beyond_classify_constant_io_rel.txt") = some ioRel
  have asked : ∀ files, Unknown before files →
      Asked (Function.update files (lit "beyond_classify_constant_in_pat.txt") (some inPat)) :=
    fun files watched => ⟨watched.write (notMem_faultFiles (by decide)) (by decide) _,
      Function.update_self _ _ _⟩
  have related : ∀ files, Asked files → Related (Function.update files
      (lit "beyond_classify_constant_io_rel.txt") (some ioRel)) :=
    fun files start => ⟨start.1.write (notMem_faultFiles (by decide)) (by decide) _,
      Function.update_self _ _ _⟩
  have simulated : Returns (fun w => Asked w.files) (runTool constantEnvironment.iogen
      (lit "beyond_classify_constant_in_pat.txt") (lit "beyond_classify_constant_io_rel.txt"))
      fun _ w => Related w.files := runTool_returns (fun files start => start.2) rfl related
  have classified : Returns (fun w => Unknown before w.files) (do
      setDraws (ClassifyOutput.patternNums * 18)
      writeFile (lit "beyond_classify_constant_in_pat.txt") inPat
      runTool constantEnvironment.iogen (lit "beyond_classify_constant_in_pat.txt")
        (lit "beyond_classify_constant_io_rel.txt")
      let ioRel ← openFile .exit (lit "beyond_classify_constant_io_rel.txt")
      return (ClassifyOutput.classifyPO 18 ioRel : Fin 1 → ℕ))
      fun classifyPO w => classifyPO = (fun _ => 0) ∧ Unknown before w.files := by
    apply Returns.bind (setDraws_returns _)
    intro _
    apply Returns.writeFile _ _ asked
    apply Returns.bind simulated
    intro _
    apply Returns.openFile Halt.exit fun files start => start.2
    apply Returns.pure
    intro w start
    refine ⟨?_, start.1⟩
    funext j
    exact ClassifyOutput.classifyPO_constant (referenceIogen constantNames fun _ _ => false)
      (by simp [rows, ClassifyOutput.firstRows]) j false fun _ => rfl
  apply Returns.bind ticked
  intro _ w start
  obtain ⟨a, v, returned, reached⟩ := classified w start.2
  refine ⟨a, v, ?_, reached⟩
  rw [← returned]
  have observed : (observe fun w => w.inner.draws : Stage ℕ) w = (.ok 0, w) := by
    rw [← start.1]
    rfl
  rw [bind_ok observed, sampleLoop_constant]

section Run

variable {before : Fin 1 → Fin 2 → Bool}

/-- The only round of the first loop appends the table of a constant. -/
theorem writeOutputs_passes (apart : lit "beyond_circuit.blif" ∉ known.map Prod.fst)
    (upLimit : Fin 1 → ℕ) :
    Passes before known (writeOutputs constantEnvironment (fun _ => 0) upLimit) := by
  have round (i : Fin 1) (lists : List (List (Fin 18))) :
      Passes before known (writeOutput constantEnvironment (fun _ => 0) upLimit lists i) := by
    rw [writeOutput, if_pos rfl]
    apply Returns.bind (appendFile_passes (notMem_faultFiles (by decide)) apart _)
    exact fun _ => Returns.pure _ fun _ watched => watched
  have loop : Passes before known
      ((List.finRange 1).foldlM (writeOutput constantEnvironment (fun _ => 0) upLimit) []) :=
    Returns.foldlM (fun _ i _ lists => round i lists) []
  apply Returns.bind loop
  intro lists
  apply Returns.bind (appendFile_passes (notMem_faultFiles (by decide)) apart _)
  exact fun _ => Returns.pure _ fun _ watched => watched

/-- No output is listed, so that the second loop tests nothing. -/
theorem fixLoop_passes (start : ℤ) (gatecnt : ℕ) (realPIToPO : List (List (Fin 18)))
    (state : FixState 1) :
    Returns (fun w => Watched before known w.files)
      ((List.finRange 1).foldlM (fixOutput constantEnvironment start gatecnt [] realPIToPO) state)
      fun fixed w => fixed = state ∧ Watched before known w.files := by
  have round (i : Fin 1) (other : FixState 1) : Returns
      (fun w => other = state ∧ Watched before known w.files)
      (fixOutput constantEnvironment start gatecnt [] realPIToPO other i)
      fun fixed w => fixed = state ∧ Watched before known w.files := by
    rw [fixOutput, if_neg List.not_mem_nil]
    exact Returns.pure _ fun _ start => start
  exact (Returns.foldlM (I := fun _ fixed w => fixed = state ∧ Watched before known w.files)
    (fun _ i _ other => round i other) state).weaken (fun _ watched => ⟨rfl, watched⟩)
      fun _ _ finish => finish

/-- The circuits that the run has written before the mixing. -/
def constantKnown : List (Text × Option Text) :=
  [(lit "beyond_before_fix_circuit.v", some (Verilog.modifyVerilogFormat constantCircuit)),
    (lit "beyond_original_circuit.v", some constantCircuit), (lit "beyond_PO0fault0.v", none)]

theorem constantCircuit_noShort : Verilog.NoShort constantCircuit := by
  rw [Verilog.NoShort]
  decide +kernel

/-- The run ends, finds no fault, and yet uses the flags of the files that were there before. -/
theorem constantRun_returns {files : Text → Option Text}
    (flags : ∀ (j : Fin 1) c, flag files j c = before j c)
    (missing : files (lit "beyond_PO0fault0.v") = none) {mixed : Text}
    (holds : ∀ files, Watched before constantKnown files →
      MixVerilog.mixCircuit files constantNames.names 18 1 = mixed)
    (noShort : Verilog.NoShort mixed) :
    ∃ report v, main constantEnvironment (startIn files) = (.ok report, v) ∧
      report.found = (fun _ => (false, false)) ∧
      report.status = (fun j => (before j 0, before j 1)) ∧ report.mixCircuit = some mixed := by
  have whole : Returns (fun w => w.inner.draws = 0 ∧ Unknown before w.files)
      (main constantEnvironment) fun report _ => report.found = (fun _ => (false, false)) ∧
        report.status = (fun j => (before j 0, before j 1)) ∧ report.mixCircuit = some mixed := by
    have ticked : Returns (fun w => w.inner.draws = 0 ∧ Unknown before w.files)
        (tick constantEnvironment.time) fun _ w => w.inner.draws = 0 ∧ Unknown before w.files :=
      fun w start => ⟨_, _, rfl, start⟩
    have logged : Returns (fun w => w.inner.draws = 0 ∧ Unknown before w.files)
        (buildDummyInfo constantEnvironment) fun _ w =>
          w.inner.draws = 0 ∧ Unknown before w.files := fun w start =>
      ⟨_, _, rfl, start.1, (start.2.write (notMem_faultFiles (by decide)) (by decide) _).write
        (notMem_faultFiles (by decide)) (by decide) _⟩
    have optimised : Returns (fun w => Unknown before w.files)
        (abcOptimization constantEnvironment (lit "beyond_circuit.blif")
          (lit "beyond_original_circuit.v")) fun _ w =>
            Watched before [(lit "beyond_original_circuit.v", some constantCircuit),
              (lit "beyond_PO0fault0.v", none)] w.files :=
      abcOptimization_watched _ _ (fun _ _ => rfl) (by decide) (notMem_faultFiles (by decide))
        (by decide)
    have rewritten : Returns (fun w => Watched before [(lit "beyond_original_circuit.v",
        some constantCircuit), (lit "beyond_PO0fault0.v", none)] w.files)
        (modifyVerilogFormat (lit "beyond_original_circuit.v") (lit "beyond_before_fix_circuit.v"))
        fun _ w => Watched before constantKnown w.files :=
      modifyVerilogFormat_watched List.mem_cons_self (by decide) constantCircuit_noShort
        (notMem_faultFiles (by decide)) (by decide)
    let Kept (files : Text → Option Text) : Prop :=
      files (lit "beyond_mix_circuit.v") = some mixed
    let Mixed (files : Text → Option Text) : Prop :=
      Watched before [(lit "beyond_after_flatten_circuit.v", some constantCircuit),
        (lit "beyond_mix_circuit.v", some mixed)] files
    have flattened : Returns (fun w => Mixed w.files)
        (modifyVerilogFormat (lit "beyond_after_flatten_circuit.v") constantEnvironment.circuitName)
        fun _ w => Kept w.files :=
      (modifyVerilogFormat_watched List.mem_cons_self (by decide) constantCircuit_noShort
        (notMem_faultFiles (by decide)) (by simp +decide)).weaken (fun _ start => start)
          fun _ w watched => watched.contents (lit "beyond_mix_circuit.v", some mixed) (by simp)
    apply Returns.bind ticked
    intro start
    apply Returns.bind logged
    intro _
    apply Returns.bind checkConstOutput_watched
    intro classifyPO
    apply Returns.fact
    rintro rfl
    apply Returns.bind (writeFile_passes (notMem_faultFiles (by decide)) (by decide) _)
    intro _
    apply Returns.bind (tick_returns _)
    intro _
    apply Returns.bind (writeOutputs_passes (by decide) _)
    intro realPIToPO
    apply Returns.bind optimised
    intro _
    apply Returns.bind (tick_returns _)
    intro _
    apply Returns.bind rewritten
    intro gatecnt0
    apply Returns.bind (tick_returns _)
    intro _
    apply Returns.bind (fixLoop_passes start gatecnt0 realPIToPO _)
    intro fixed
    apply Returns.fact
    rintro rfl
    apply Returns.bind (tick_returns _)
    intro _
    apply Returns.bind (mixVerilog_watched constantEnvironment (fun _ _ => rfl) holds noShort)
    intro status
    apply Returns.fact
    rintro rfl
    apply Returns.bind (tick_returns _)
    intro _
    apply Returns.bind flattened
    intro _
    apply Returns.bind (tick_returns (Q := Kept) _)
    intro _
    apply Returns.readFile (Q := Kept) fun files found => found
    intro w _
    exact ⟨_, _, rfl, rfl, rfl, rfl⟩
  obtain ⟨report, v, returned, finish⟩ := whole (startIn files)
    ⟨rfl, flags, by rw [List.forall_mem_singleton]; exact missing⟩
  exact ⟨report, v, returned, finish⟩

end Run

end Constant

end LogicRegression.Main
