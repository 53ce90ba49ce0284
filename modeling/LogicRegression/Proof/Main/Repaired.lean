import LogicRegression.Proof.FixNetwork.Model
import LogicRegression.Proof.Main.Frame
import LogicRegression.Proof.Main.Signals
import LogicRegression.Proof.Main.Values

namespace LogicRegression.Main

open Text Program Structural WriteVerilog MixVerilog FixNetwork

variable {n m : ℕ}

section Output

/-- The tested patterns at which the golden output has one value and the first circuit the other. -/
def wrongAt (golden first : (Fin n → Bool) → Fin m → Bool) (tested : List (Fin n → Bool)) (i : Fin m)
    (value : Bool) : List (Fin n → Bool) :=
  tested.filter fun x => golden x i = value ∧ first x i = !value

/-- A file of faults and its Verilog file are there exactly when there are faults. -/
structure FaultWritten (io : IoNames n m) (realPI : List (Fin n)) (i : Fin m) (b : Bool)
    (patterns : List (Fin n → Bool)) (files : Text → Option Text) : Prop where
  flag : (files (faultFile i b.toNat (lit ".blif"))).isSome = !patterns.isEmpty
  submodule : patterns ≠ [] → ∃ net,
    files (faultFile i b.toNat (lit ".v")) = some (writeVerilog net) ∧
      Maps net (submoduleName i b) (io.names.take n) [io.output i ++ wrongSuffix b]
        fun x (_ : Fin 1) => b ^^ matched realPI patterns x

/-- The files of both lists of faults of one output are written. -/
def Repaired (io : IoNames n m) (golden first : (Fin n → Bool) → Fin m → Bool)
    (realPI : List (Fin n)) (i : Fin m) (tested : List (Fin n → Bool))
    (files : Text → Option Text) : Prop :=
  ∀ b : Bool, FaultWritten io realPI i b (wrongAt golden first tested i !b) files

/-- No file of faults of one output is there. -/
def Fresh (i : Fin m) (files : Text → Option Text) : Prop :=
  ∀ b : Bool, files (faultFile i b.toNat (lit ".blif")) = none

/-- The first circuit as the optimiser wrote it, and the same circuit in the gates of the language. -/
structure Optimised (net : Network) (files : Text → Option Text) : Prop where
  original : files (lit "beyond_original_circuit.v") = some (writeVerilog net)
  circuit : files (lit "beyond_before_fix_circuit.v") =
    some (Verilog.modifyVerilogFormat (writeVerilog net))

/-- A run stops early in a loop that does not end, or because the simulator has no answer to a test
without patterns. -/
def Quiet (env : Environment n m) (untested : Prop) (reason : Halt) (w : World Text Text Counters) :
    Prop :=
  reason = .endless ∨ reason = .exit ∧ untested ∧
    env.iogen (fixInPat env.ioNames ([] : List (Fin n → Bool))) = none ∧
    w.files (lit "beyond_fix_io_rel.txt") = none

/-- A stage that stops early in such a way only. -/
abbrev Steady {A : Type} (env : Environment n m) (untested : Prop)
    (before : World Text Text Counters → Prop) (stage : Stage A)
    (after : A → World Text Text Counters → Prop) : Prop :=
  Halts before stage after (Quiet env untested)

end Output

section Stable

variable {io : IoNames n m} {realPI : List (Fin n)} {i : Fin m} {b : Bool}
  {files others : Text → Option Text}

theorem FaultWritten.congr {patterns : List (Fin n → Bool)}
    (written : FaultWritten io realPI i b patterns files)
    (same : ∀ extension, others (faultFile i b.toNat extension) = files (faultFile i b.toNat extension)) :
    FaultWritten io realPI i b patterns others where
  flag := by rw [same, written.flag]
  submodule := fun nonempty => by
    obtain ⟨net, found, maps⟩ := written.submodule nonempty
    exact ⟨net, (same _).trans found, maps⟩

end Stable

section Names

/-- The names of fault files start in their own way. -/
theorem faultFile_ne {i b : ℕ} {extension name : Text} (apart : name.take 9 ≠ lit "beyond_PO") :
    faultFile i b extension ≠ name := by
  rintro rfl
  apply apart
  rw [faultFile, MixVerilog.faultName, List.append_assoc, List.append_assoc, List.append_assoc]
  rfl

/-- The repair of one output leaves the fault files of the others alone. -/
theorem faultFile_notMem {i j : ℕ} (apart : j ≠ i) (b : ℕ) (extension : Text) :
    faultFile j b extension ∉ repairFiles i := by
  rintro (listed | ⟨c, other, same⟩)
  · have names : ∀ name ∈ repairNames, name.take 9 ≠ lit "beyond_PO" := by decide
    exact faultFile_ne (names _ listed) rfl
  · simp only [faultFile, MixVerilog.faultName, List.append_assoc, List.append_cancel_left_eq] at same
    exact apart (decimal_append_inj (c := 'f') (d := 'f') (by decide) (by decide) same).1

theorem notMem_repairFiles {i : ℕ} {name : Text} (unlisted : name ∉ repairNames)
    (apart : name.take 9 ≠ lit "beyond_PO") : name ∉ repairFiles i := by
  rintro (listed | ⟨b, extension, same⟩)
  · exact unlisted listed
  · exact faultFile_ne apart same.symm

/-- The files of one list of faults and the script of the optimiser. -/
def listFiles (i : ℕ) (b : Bool) : Set Text :=
  { name | name = lit "beyond_run.script" ∨ ∃ extension, name = faultFile i b.toNat extension }

/-- The two lists of an output have different files. -/
theorem faultFile_notMem_listFiles (i : ℕ) (b : Bool) (extension : Text) :
    faultFile i b.toNat extension ∉ listFiles i !b := by
  rintro (script | ⟨other, same⟩)
  · exact faultFile_ne (by decide) script
  · simp only [faultFile, MixVerilog.faultName, List.append_assoc, List.append_cancel_left_eq] at same
    cases b
    · exact absurd (List.head_eq_of_cons_eq same) (by decide)
    · exact absurd (List.head_eq_of_cons_eq same) (by decide)

/-- A stage that leaves the fault files alone makes none. -/
theorem fresh_of_keeps {A : Type} {stage : Stage A} (keeps : Keeps (faultFiles m) stage) (i : Fin m) :
    Ensures (fun w => Fresh i w.files) stage fun _ w => Fresh i w.files := by
  have own (b : Bool) : faultFile i b.toNat (lit ".blif") ∈ faultFiles m := by
    cases b
    · exact faultFile_mem i 0
    · exact faultFile_mem i 1
  exact fun w fresh a v returned b =>
    (keeps w.files w (fun _ _ => rfl) a v returned _ (own b)).trans (fresh b)

end Names

section Faults

variable {env : Environment n m} {io : IoNames n m} (i : Fin m) {realPI : List (Fin n)}

/-- The text of a fault file. -/
def faultText (io : IoNames n m) (i : Fin m) (realPI : List (Fin n)) (patterns : List (Fin n → Bool)) :
    Bool → Text
  | false => fault0Blif io.names i realPI patterns
  | true => fault1Blif io.names i realPI patterns

theorem faultText_describes {patterns : List (Fin n → Bool)} (nonempty : patterns ≠ []) (b : Bool) :
    Blif.Describes (faultText io i realPI patterns b) (submoduleName i b) (io.names.take n)
      [io.output i ++ wrongSuffix b] fun x (_ : Fin 1) => b ^^ matched realPI patterns x := by
  cases b with
  | false =>
      simp only [Bool.false_xor]
      exact describes_fault0 io i realPI patterns
  | true =>
      simp only [Bool.true_xor]
      exact describes_fault1 io i realPI patterns nonempty

/-- The optimiser writes a network for a model and leaves the model where it is. -/
theorem abcOptimization_maps {width depth : ℕ} (abc : Abc env.abc) {text name : Text}
    {inputs outputs : List Text} {f : (Fin width → Bool) → Fin depth → Bool}
    (mappable : Mappable name inputs outputs width depth)
    (describes : Blif.Describes text name inputs outputs f) {blif verilog : Text}
    (scriptApart : blif ≠ lit "beyond_run.script") (apart : blif ≠ verilog) :
    Returns (fun w => w.files blif = some text) (abcOptimization env blif verilog)
      fun _ w => w.files blif = some text ∧ ∃ net,
        w.files verilog = some (writeVerilog net) ∧ Maps net name inputs outputs f := by
  obtain ⟨net, written, maps⟩ := abc.blif mappable describes blif verilog (lines text).length
  let Q (files : Text → Option Text) : Prop := files blif = some text
  let R (files : Text → Option Text) : Prop := Q files ∧ ∃ net,
    files verilog = some (writeVerilog net) ∧ Maps net name inputs outputs f
  apply Returns.readFile (Q := Q) (fun files found => found)
  apply Returns.writeFile (R := Q) _ _ fun files found =>
    (Function.update_of_ne scriptApart _ _).trans found
  refine runTool_returns (R := R) (fun files found => found) written fun files found =>
    ⟨?_, net, Function.update_self _ _ _, maps⟩
  exact (Function.update_of_ne apart _ _).trans found

variable (regular : Regular io) (abc : Abc env.abc)
include regular abc

/-- A list of faults leaves its two files behind. -/
theorem writeFault_written (b : Bool) (patterns : List (Fin n → Bool)) :
    Returns (fun w => w.files (faultFile i b.toNat (lit ".blif")) = none)
      (writeFault env i b.toNat patterns (faultText io i realPI patterns b))
      fun _ w => FaultWritten io realPI i b patterns w.files := by
  rw [writeFault]
  by_cases nonempty : patterns ≠ []
  · rw [if_pos nonempty]
    let blif := faultFile i b.toNat (lit ".blif")
    let text := faultText io i realPI patterns b
    have apart : blif ≠ faultFile i b.toNat (lit ".v") := by
      intro same
      have names : faultFile i b.toNat ('.' :: lit "blif") = faultFile i b.toNat ('.' :: lit "v") := same
      exact absurd (faultFile_inj names).2.2 (by decide)
    have stored : Returns (fun _ => True) (writeFile blif text : Stage Unit)
        fun _ w => w.files blif = some text :=
      Returns.update _ fun w _ => World.write_files_self _ _ _
    have describes : Blif.Describes text (submoduleName i b) (io.names.take n)
        [io.output i ++ wrongSuffix b] fun x (_ : Fin 1) => b ^^ matched realPI patterns x :=
      faultText_describes i nonempty b
    have optimised := abcOptimization_maps abc (mappable_submodule regular i b) describes
      (faultFile_ne (by decide)) apart
    refine (Returns.bind stored fun _ => optimised).weaken (fun _ _ => trivial) ?_
    rintro _ w ⟨found, submodule⟩
    exact ⟨by rw [found]; simpa using nonempty, fun _ => submodule⟩
  · rw [if_neg nonempty]
    have empty : patterns = [] := not_not.mp nonempty
    refine Returns.pure _ fun w none => ⟨?_, fun other => absurd other nonempty⟩
    rw [none, empty]
    rfl

end Faults

section Round

variable {env : Environment n m} {io : IoNames n m} (names : env.ioNames = io.names) (iogen : Iogen io)
  (served : iogen.RunBy env.iogen) (i : Fin m) (call : Call n m)
  {first : (Fin n → Bool) → Fin m → Bool} {circuit : Text}

/-- The files of one test when the testbench has run. -/
structure Logged (io : IoNames n m) (patterns : List (Fin n → Bool)) (log : Text)
    (files : Text → Option Text) : Prop where
  inPat : files (lit "beyond_fix_in_pat.txt") = some (fixInPat io.names patterns)
  verifyLog : files (lit "beyond_fixnetwork_verify_log.txt") = some log

/-- The files of one test when the pattern simulator has run as well; it need not answer a file
without rows. -/
structure Replied (env : Environment n m) {io : IoNames n m} (iogen : Iogen io)
    (patterns : List (Fin n → Bool)) (log : Text) (files : Text → Option Text) : Prop where
  verifyLog : files (lit "beyond_fixnetwork_verify_log.txt") = some log
  fixIoRel : patterns ≠ [] →
    files (lit "beyond_fix_io_rel.txt") = some (iogen.run (fixInPat io.names patterns))
  silent : files (lit "beyond_fix_io_rel.txt") = none →
    env.iogen (fixInPat io.names patterns) = none

include names in
/-- The testbench runs on the patterns of one test. -/
theorem bench_logged {A : Type} (patterns : List (Fin n → Bool)) {log : Text}
    (simulated : (env.ncverilog (testbench n m io.names) circuit
      (fixInPat io.names patterns)).1 = some log) {next : Stage A}
    {after : A → World Text Text Counters → Prop} {stopped : Halt → World Text Text Counters → Prop}
    (rest : Halts (fun w => Logged io patterns log w.files) next after stopped) :
    Halts (fun w => w.files (lit "beyond_before_fix_circuit.v") = some circuit)
      (do writeFile (lit "beyond_fix_in_pat.txt") (fixInPat env.ioNames patterns)
          writeFile (lit "beyond_fixnetwork_testbench.v") (testbench n m env.ioNames)
          runNcverilog env
          next) after stopped := by
  rw [names]
  let Asked (files : Text → Option Text) : Prop :=
    files (lit "beyond_before_fix_circuit.v") = some circuit ∧
      files (lit "beyond_fix_in_pat.txt") = some (fixInPat io.names patterns)
  let Ready (files : Text → Option Text) : Prop :=
    Asked files ∧ files (lit "beyond_fixnetwork_testbench.v") = some (testbench n m io.names)
  have asked : Returns (fun w => w.files (lit "beyond_before_fix_circuit.v") = some circuit)
      (writeFile (lit "beyond_fix_in_pat.txt") (fixInPat io.names patterns) : Stage Unit)
      fun _ w => Asked w.files := Returns.update _ fun w found =>
    ⟨(World.write_files_of_ne (by decide) _ _).trans found, World.write_files_self _ _ _⟩
  have ready : Returns (fun w => Asked w.files)
      (writeFile (lit "beyond_fixnetwork_testbench.v") (testbench n m io.names) : Stage Unit)
      fun _ w => Ready w.files := Returns.update _ fun w asked =>
    ⟨⟨(World.write_files_of_ne (by decide) _ _).trans asked.1,
      (World.write_files_of_ne (by decide) _ _).trans asked.2⟩, World.write_files_self _ _ _⟩
  have logged : Returns (fun w => Ready w.files) (runNcverilog env)
      fun _ w => Logged io patterns log w.files := by
    apply Returns.readFile fun files ready => ready.2
    apply Returns.readFile fun files ready => ready.1.1
    apply Returns.readFile fun files ready => ready.1.2
    simp only [Option.getD_some, simulated, writeAnswer]
    apply Returns.writeFile (R := Logged io patterns log) _ _ fun files ready =>
      ⟨(Function.update_of_ne (by decide) _ _).trans ready.1.2, Function.update_self _ _ _⟩
    exact Returns.update _ fun w logged =>
      ⟨(World.write_files_of_ne (by decide) _ _).trans logged.inPat,
        (World.write_files_of_ne (by decide) _ _).trans logged.verifyLog⟩
  apply Halts.bind asked.halts
  intro _
  apply Halts.bind ready.halts
  intro _
  exact Halts.bind logged.halts fun _ => rest

include served in
/-- The pattern simulator answers a file with rows. -/
theorem runTool_replied (patterns : List (Fin n → Bool)) (log : Text) :
    Returns (fun w => Logged io patterns log w.files)
      (runTool env.iogen (lit "beyond_fix_in_pat.txt") (lit "beyond_fix_io_rel.txt"))
      fun _ w => Replied env iogen patterns log w.files := by
  have asked (nonempty : patterns ≠ []) := served patterns _ nonempty (words_fixInPat io patterns)
  apply Returns.readFile fun files logged => logged.inPat
  rw [Option.getD_some]
  cases answered : env.iogen (fixInPat io.names patterns) with
  | none =>
      refine Returns.pure _ fun w logged => ⟨logged.verifyLog, fun nonempty => ?_, fun _ => answered⟩
      rw [asked nonempty] at answered
      cases answered
  | some answer =>
      refine Returns.update _ fun w logged =>
        ⟨(World.write_files_of_ne (by decide) _ _).trans logged.verifyLog, fun nonempty => ?_,
          fun missing => ?_⟩
      · rw [asked nonempty] at answered
        rw [World.write_files_self, answered]
      · rw [World.write_files_self] at missing
        cases missing

variable (simulates : Simulates io env.ncverilog) (regular : Regular io)
  (faithful : Testbench.Faithful n m io.names) (positive : 0 < n)
  (isCircuit : IsCircuit circuit (lit "main_circuit") (io.names.take n)
    (List.ofFn fun k => io.output k ++ lit "_main") first)
include simulates regular faithful positive isCircuit

/-- The testbench always writes a log, and with it the comparison finds exactly the patterns at which
the first circuit is wrong. -/
theorem exists_log (patterns : List (Fin n → Bool)) :
    ∃ log, (env.ncverilog (testbench n m io.names) circuit (fixInPat io.names patterns)).1 = some log ∧
      ∀ fixIoRel, (patterns ≠ [] → fixIoRel = iogen.run (fixInPat io.names patterns)) →
        FixNetwork.compare m i patterns log fixIoRel =
          ⟨wrongAt iogen.golden first patterns i true, wrongAt iogen.golden first patterns i false⟩ := by
  obtain ⟨shown, shows, answers⟩ := simulates regular.free circuit first isCircuit
  by_cases empty : patterns = []
  · have ended : ∃ fuel, Testbench.simulate shown n m fuel (fixInPat io.names []) = some _ :=
      Testbench.simulate_empty faithful
    obtain ⟨fuel, returned⟩ := ended
    rw [empty]
    exact ⟨_, answers _ fuel _ returned, fun _ _ => rfl⟩
  · obtain ⟨fuel, returned⟩ := Testbench.simulate_rows faithful positive shows empty
    refine ⟨_, answers _ fuel _ returned, fun fixIoRel same => ?_⟩
    rw [same empty]
    exact Testbench.compare_log iogen i patterns (Testbench.words_logLines patterns)

include names in
omit simulates regular faithful positive isCircuit in
/-- The logs of a test are compared; without patterns the file of the simulator may not be there. -/
theorem logs_compared {patterns : List (Fin n → Bool)} (makes : call.Makes env patterns) {log : Text} {found : FixNetwork.Faults n}
    (compared : ∀ fixIoRel, (patterns ≠ [] → fixIoRel = iogen.run (fixInPat io.names patterns)) →
      FixNetwork.compare m i patterns log fixIoRel = found) :
    Steady env (call.Makes env []) (fun w => Replied env iogen patterns log w.files)
      (do let verifyLog ← openFile .exit (lit "beyond_fixnetwork_verify_log.txt")
          let fixIoRel ← openFile .exit (lit "beyond_fix_io_rel.txt")
          return FixNetwork.compare m i patterns verifyLog fixIoRel : Stage (FixNetwork.Faults n))
      fun faults _ => faults = found := by
  have first : Steady env (call.Makes env []) (fun w => Replied env iogen patterns log w.files)
      (openFile .exit (lit "beyond_fixnetwork_verify_log.txt")) fun text w => text = log ∧
        Replied env iogen patterns log w.files := by
    refine (Halts.openFile Halt.exit fun w replied missing => ?_).weaken (fun _ start => start)
      (fun text w opened => ⟨?_, opened.1⟩) fun _ _ quiet => quiet
    · rw [replied.verifyLog] at missing
      cases missing
    · have found := opened.2
      rw [opened.1.verifyLog] at found
      exact (Option.some.inj found).symm
  -- only a file without rows may have no answer
  have second : Steady env (call.Makes env []) (fun w => Replied env iogen patterns log w.files)
      (openFile .exit (lit "beyond_fix_io_rel.txt")) fun text _ =>
        patterns ≠ [] → text = iogen.run (fixInPat io.names patterns) := by
    refine (Halts.openFile Halt.exit fun w replied missing => ?_).weaken (fun _ start => start)
      (fun text w opened nonempty => ?_) fun _ _ quiet => quiet
    · have empty : patterns = [] := by
        by_contra nonempty
        rw [replied.fixIoRel nonempty] at missing
        cases missing
      have silent := replied.silent missing
      rw [empty, ← names] at silent
      exact .inr ⟨rfl, empty ▸ makes, silent, missing⟩
    · have found := opened.2
      rw [opened.1.fixIoRel nonempty] at found
      exact (Option.some.inj found).symm
  apply Halts.bind first
  intro verifyLog
  apply Halts.fact
  rintro rfl
  apply Halts.bind second
  intro fixIoRel
  exact Halts.pure _ fun _ same => compared fixIoRel same

include names served

/-- The comparison finds exactly the patterns at which the first circuit is wrong. -/
theorem findFaults_exact : Steady env (call.Makes env [])
    (fun w => w.files (lit "beyond_before_fix_circuit.v") = some circuit ∧
      w.inner.draws = call.count)
    (findFaults env call.i call.patternUpLimit call.realPI) fun faults _ => ∃ tested,
      call.Makes env tested ∧ faults = ⟨wrongAt iogen.golden first tested call.i true,
        wrongAt iogen.golden first tested call.i false⟩ := by
  let Given (files : Text → Option Text) : Prop :=
    files (lit "beyond_before_fix_circuit.v") = some circuit
  apply Halts.observedAt
  rintro w ⟨found, count⟩
  rw [count]
  split
  · exact Halts.stop fun _ _ => .inl rfl
  · next run later returned =>
      let patterns := run.final.iogenInputPatterns
      have makes : call.Makes env patterns := ⟨_, run, later, returned, rfl⟩
      obtain ⟨log, simulated, compared⟩ := exists_log iogen call.i simulates regular faithful positive
        isCircuit patterns
      have drawn : Returns (· = w) (setDraws later) fun _ w => Given w.files :=
        (setDraws_returns (Q := Given) later).weaken (fun _ same => same ▸ found) fun _ _ given => given
      apply Halts.bind drawn.halts
      intro _
      apply Halts.bind (tick_returns (Q := Given) env.time).halts
      intro _
      apply bench_logged names patterns simulated
      apply Halts.bind (runTool_replied iogen served patterns log).halts
      intro _
      refine (logs_compared names iogen call.i call makes compared).weaken (fun _ replied => replied)
        (fun _ _ same => ⟨patterns, makes, same⟩) fun _ _ quiet => quiet

/-- The repair of one output writes the files of both of its lists. -/
theorem fixNetwork_repaired (abc : Abc env.abc) : Steady env (call.Makes env [])
    (fun w => (w.files (lit "beyond_before_fix_circuit.v") = some circuit ∧
      w.inner.draws = call.count) ∧ Fresh call.i w.files)
    (fixNetwork env call.i call.patternUpLimit call.realPI) fun _ w => ∃ tested,
      call.Makes env tested ∧ Repaired io iogen.golden first call.realPI call.i tested w.files := by
  obtain ⟨i, patternUpLimit, realPI, count⟩ := call
  let call : Call n m := ⟨i, patternUpLimit, realPI, count⟩
  have compared := findFaults_exact names iogen served call simulates regular faithful positive
    isCircuit
  have clean := fresh_of_keeps (findFaults_local env (Answered.univ env) (Set.mem_univ _) i
    patternUpLimit realPI).keeps i
  have tested := (compared.weaken (fun w (start : (w.files (lit "beyond_before_fix_circuit.v") =
    some circuit ∧ w.inner.draws = call.count) ∧ Fresh i w.files) => start.1) (fun _ _ found => found)
    fun _ _ quiet => quiet).and (clean.weaken (fun w start => start.2) fun _ _ fresh => fresh)
  apply Halts.bind tested
  intro faults
  apply Halts.fact
  rintro ⟨tested, makes, rfl⟩
  rw [names]
  let zeros := wrongAt iogen.golden first tested i true
  let ones := wrongAt iogen.golden first tested i false
  -- each list leaves the files of the other one alone
  have others (b : Bool) {files later : Text → Option Text}
      (same : ∀ name ∉ listFiles i !b, later name = files name) (extension : Text) :
      later (faultFile i b.toNat extension) = files (faultFile i b.toNat extension) :=
    same _ (faultFile_notMem_listFiles i b extension)
  have own (b : Bool) (extension : Text) : faultFile i b.toNat extension ∈ listFiles i b :=
    .inr ⟨extension, rfl⟩
  have first : Returns (fun w => Fresh i w.files)
      (writeFault env i 0 zeros (fault0Blif io.names i realPI zeros)) fun _ w =>
        FaultWritten io realPI i false zeros w.files ∧
          w.files (faultFile i true.toNat (lit ".blif")) = none :=
    ((writeFault_written i regular abc false zeros).weaken (fun w fresh => fresh false)
      fun _ _ written => written).and
      (((writeFault_frame env i (.inl rfl) (own false) zeros _).ensures
        fun files later same none => (others true same _).trans none).weaken
          (fun w fresh => fresh true) fun _ _ none => none)
  have second : Returns (fun w => FaultWritten io realPI i false zeros w.files ∧
      w.files (faultFile i true.toNat (lit ".blif")) = none)
      (writeFault env i 1 ones (fault1Blif io.names i realPI ones)) fun _ w =>
        FaultWritten io realPI i true ones w.files ∧ FaultWritten io realPI i false zeros w.files :=
    ((writeFault_written i regular abc true ones).weaken (fun w start => start.2)
      fun _ _ written => written).and
      (((writeFault_frame env i (.inl rfl) (own true) ones _).ensures
        fun files later same written => FaultWritten.congr written (others false same)).weaken
          (fun w start => start.1) fun _ _ written => written)
  apply Halts.bind first.halts
  intro _
  apply Halts.bind second.halts
  intro _
  refine Halts.pure _ ?_
  rintro w ⟨true, false⟩
  refine ⟨tested, makes, fun b => ?_⟩
  cases b
  · exact false
  · exact true

end Round

section Loop

/-- The outputs that are done have the files of their faults at such patterns, and the others have none
yet. -/
structure Progress (io : IoNames n m) (golden first : (Fin n → Bool) → Fin m → Bool)
    (drawn : Fin m → List (Fin n → Bool) → Prop) (realPI : Fin m → List (Fin n)) (net : Network)
    (done : List (Fin m)) (files : Text → Option Text) : Prop where
  optimised : Optimised net files
  repaired : ∀ i ∈ done, ∃ tested, drawn i tested ∧
    Repaired io golden first (realPI i) i tested files
  fresh : ∀ i ∉ done, Fresh i files

variable {env : Environment n m} {io : IoNames n m} {golden first : (Fin n → Bool) → Fin m → Bool}
  {drawn : Fin m → List (Fin n → Bool) → Prop} {realPI : Fin m → List (Fin n)} {net : Network}
  {files others : Text → Option Text}

theorem Optimised.congr {i : ℕ} (optimised : Optimised net files)
    (same : ∀ name ∉ repairFiles i, others name = files name) : Optimised net others where
  original := (same _ (notMem_repairFiles (by decide) (by decide))).trans optimised.original
  circuit := (same _ (notMem_repairFiles (by decide) (by decide))).trans optimised.circuit

theorem repaired_nil {i : Fin m} {realPI : List (Fin n)} (fresh : Fresh i files) :
    Repaired io golden first realPI i [] files := fun b =>
  ⟨by rw [fresh b]; rfl, fun nonempty => absurd rfl nonempty⟩

/-- A reading of the clock before a call. -/
theorem tick_before (time : ℕ → ℤ) (files : Text → Option Text) (inner : Counters) :
    Returns (fun w => w.files = files ∧ w.inner = inner) (tick time) fun now w =>
      now = time inner.readings ∧ w.files = files ∧ w.inner.draws = inner.draws := by
  rintro w ⟨rfl, rfl⟩
  exact ⟨_, _, rfl, rfl, rfl, rfl⟩

variable (names : env.ioNames = io.names) (iogen : Iogen io) (served : iogen.RunBy env.iogen)
  (simulates : Simulates io env.ncverilog) (regular : Regular io)
  (faithful : Testbench.Faithful n m io.names) (positive : 0 < n) (abc : Abc env.abc)
  (maps : Maps net (lit "main_circuit") (io.names.take n)
    (List.ofFn fun k => io.output k ++ lit "_main") first) (observed : 0 < m)
include names served simulates regular faithful positive abc maps observed

/-- One round tests its output and leaves the files of the others alone. -/
theorem round_progress {prepared : Prepared n m}
    (lists : prepared.realPIToPO = (List.finRange m).map realPI) {done : List (Fin m)} {i : Fin m}
    (later : i ∉ done) (state : FixState m) {w : World Text Text Counters}
    (progress : Progress io iogen.golden first drawn realPI net done w.files)
    (inside : i ∈ prepared.notTruthTablePO → ∀ tested,
      (prepared.call env state w i).Makes env tested → drawn i tested)
    (outside : i ∉ prepared.notTruthTablePO → drawn i []) :
    Steady env (i ∈ prepared.notTruthTablePO ∧ (prepared.call env state w i).Makes env []) (· = w)
      (prepared.round env state i)
      fun _ v => Progress io iogen.golden first drawn realPI net (done ++ [i]) v.files := by
  have isCircuit := maps.isCircuit (mappable_main regular observed)
  let call := prepared.call env state w i
  have own : Steady env (i ∈ prepared.notTruthTablePO ∧ call.Makes env []) (· = w)
      (prepared.round env state i) fun _ v => ∃ tested, drawn i tested ∧
        Repaired io iogen.golden first (realPI i) i tested v.files := by
    rw [Prepared.round, fixOutput]
    split
    · next listed =>
        have real : call.realPI = realPI i := by
          change prepared.realPIToPO.getD i [] = realPI i
          rw [lists]
          simp
        have read := (tick_before env.time w.files w.inner).weaken
          (fun v (same : v = w) => ⟨congrArg World.files same, congrArg World.inner same⟩)
          fun _ _ start => start
        apply Halts.bind read.halts
        intro now
        apply Halts.fact
        rintro rfl
        let Start (v : World Text Text Counters) : Prop :=
          v.files = w.files ∧ v.inner.draws = call.count
        have again : Returns Start (tick env.time) fun _ => Start := fun v start =>
          ⟨_, _, rfl, start⟩
        apply Halts.bind again.halts
        intro _
        have repaired := fixNetwork_repaired names iogen served call simulates regular faithful
          positive isCircuit abc
        apply Halts.bind (repaired.weaken (fun v (start : Start v) => ?_) (fun _ _ done => done)
          fun reason v quiet => quiet.imp_right fun untested => ⟨untested.1, ⟨listed, untested.2.1⟩,
            untested.2.2⟩)
        · intro flags
          let Done (files : Text → Option Text) : Prop := ∃ tested, call.Makes env tested ∧
            Repaired io iogen.golden first call.realPI i tested files
          apply Halts.bind (tick_returns (Q := Done) env.time).halts
          intro _
          refine Halts.pure _ ?_
          rintro v ⟨tested, makes, repaired⟩
          exact ⟨tested, inside listed tested makes, real ▸ repaired⟩
        · rw [start.1]
          exact ⟨⟨progress.optimised.circuit, start.2⟩, progress.fresh i later⟩
    · next unlisted =>
        refine Halts.pure _ ?_
        rintro v rfl
        exact ⟨[], outside unlisted, repaired_nil (progress.fresh i later)⟩
  let Rest (files : Text → Option Text) : Prop := Optimised net files ∧
    (∀ j ∈ done, ∃ tested, drawn j tested ∧
      Repaired io iogen.golden first (realPI j) j tested files) ∧ ∀ j ∉ done ++ [i], Fresh j files
  have rest : Ensures (fun w => Rest w.files) (prepared.round env state i) fun _ w => Rest w.files := by
    apply (fixOutput_frame env i _ _ _ _ state).ensures
    rintro files others same ⟨optimised, repaired, fresh⟩
    have kept {j : Fin m} (apart : j ≠ i) (b : Bool) (extension : Text) :
        others (faultFile j b.toNat extension) = files (faultFile j b.toNat extension) :=
      same _ (faultFile_notMem (fun equal => apart (Fin.ext equal)) _ _)
    refine ⟨optimised.congr same, fun j listed => ?_, fun j unlisted b => ?_⟩
    · obtain ⟨tested, drawn, written⟩ := repaired j listed
      have apart : j ≠ i := fun equal => later (equal ▸ listed)
      exact ⟨tested, drawn, fun b => (written b).congr (kept apart b)⟩
    · have apart : j ≠ i := fun equal => unlisted (by simp [equal])
      exact (kept apart b _).trans (fresh j unlisted b)
  have begun : Rest w.files := ⟨progress.optimised, progress.repaired, fun j outside =>
    progress.fresh j fun inside => outside (List.mem_append_left _ inside)⟩
  have whole := own.and (rest.weaken (fun v (same : v = w) => same ▸ begun) fun _ _ rest => rest)
  refine whole.weaken (fun _ same => same) ?_ fun _ _ quiet => quiet
  rintro _ v ⟨tested, optimised, repaired, fresh⟩
  refine ⟨optimised, fun j inside => ?_, fresh⟩
  rcases List.mem_append.mp inside with before | equal
  · exact repaired j before
  · rw [List.mem_singleton.mp equal]
    exact tested

end Loop

end LogicRegression.Main
