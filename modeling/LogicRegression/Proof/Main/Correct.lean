import LogicRegression.Proof.Main.Mixed

namespace LogicRegression.Main

open Text Program Structural WriteVerilog MixVerilog FixNetwork

variable {n m : ℕ}

/-- The tools of a run do what they are documented to do, and the names of the signals are regular. -/
structure Equipped (env : Environment n m) (io : IoNames n m) (iogen : Iogen io) : Prop where
  names : env.ioNames = io.names
  served : iogen.RunBy env.iogen
  abc : Abc env.abc
  ncverilog : Simulates io env.ncverilog
  regular : Regular io
  faithful : Testbench.Faithful n m io.names
  observed : 0 < m

/-- Each output is classified by its number of ones on different vectors. -/
def Classified (golden : (Fin n → Bool) → Fin m → Bool) (classifyPO : Fin m → ℕ) : Prop :=
  ∃ rows : List (Fin n → Bool), rows.Nodup ∧ rows.length = ClassifyOutput.patternNums ∧
    ∀ j, classifyPO j = ClassifyOutput.outputType (rows.countP fun x => golden x j)

section Clean

/-- No fault file is there. -/
def Clean (m : ℕ) (files : Text → Option Text) : Prop := ∀ i : Fin m, Fresh i files

theorem clean_of_keeps {A : Type} {stage : Stage A} (keeps : Keeps (faultFiles m) stage) :
    Ensures (fun w => Clean m w.files) stage fun _ w => Clean m w.files :=
  fun w clean a v returned i => fresh_of_keeps keeps i w (clean i) a v returned

/-- The logs of the dummy inputs are there, and no fault file is. -/
structure Begun (env : Environment n m) (files : Text → Option Text) : Prop where
  log : files (lit "beyond_DummyInfo.log") = some env.dummyInfo
  logEx : files (lit "beyond_DummyInfo_ex.log") = some env.dummyInfoEx
  clean : Clean m files

theorem Begun.write {env : Environment n m} {files : Text → Option Text} (begun : Begun env files)
    {name : Text} (apart : name.take 9 ≠ lit "beyond_PO")
    (others : name ∉ [lit "beyond_DummyInfo.log", lit "beyond_DummyInfo_ex.log"]) (content : Text) :
    Begun env (Function.update files name (some content)) := by
  have other {kept : Text} (listed : kept ∈ [lit "beyond_DummyInfo.log", lit "beyond_DummyInfo_ex.log"]) :
      kept ≠ name := fun same => others (same ▸ listed)
  refine ⟨?_, ?_, fun i b => ?_⟩
  · exact (Function.update_of_ne (other (by simp)) _ _).trans begun.log
  · exact (Function.update_of_ne (other (by simp)) _ _).trans begun.logEx
  · exact (Function.update_of_ne (faultFile_ne apart) _ _).trans (begun.clean i b)

end Clean

section Stages

variable {env : Environment n m} {io : IoNames n m} {iogen : Iogen io}
  (equipped : Equipped env io iogen)

theorem buildDummyInfo_begun :
    Returns (fun w => Clean m w.files) (buildDummyInfo env) fun _ w => Begun env w.files := by
  let Logged (files : Text → Option Text) : Prop :=
    files (lit "beyond_DummyInfo.log") = some env.dummyInfo ∧ Clean m files
  have kept {files : Text → Option Text} {name : Text} (clean : Clean m files)
      (apart : name.take 9 ≠ lit "beyond_PO") (content : Text) :
      Clean m (Function.update files name (some content)) := fun i b =>
    (Function.update_of_ne (faultFile_ne apart) _ _).trans (clean i b)
  apply Returns.writeFile (Q := Clean m) (R := Logged) _ _ fun files clean =>
    ⟨Function.update_self _ _ _, kept clean (by decide) _⟩
  refine Returns.update _ fun w logged => ⟨?_, ?_, kept logged.2 (by decide) _⟩
  · exact (World.write_files_of_ne (by decide) _ _).trans logged.1
  · exact World.write_files_self _ _ _

theorem mirrored_injective :
    Function.Injective (ClassifyOutput.mirrored : (Fin n → Bool) → Fin n → Bool) := by
  intro x y same
  funext j
  have reversed := congrFun same j.rev
  simpa [ClassifyOutput.mirrored] using reversed

include equipped in
/-- The outputs are classified on different vectors. -/
theorem checkConstOutput_classified : Steady env False (fun w => Begun env w.files) (checkConstOutput env)
    fun classifyPO w => (Classified iogen.golden classifyPO ∧ 0 < n) ∧ Begun env w.files := by
  have counted : Steady env False (fun w => Begun env w.files) (checkConstOutput env)
      fun classifyPO w => Classified iogen.golden classifyPO ∧ Begun env w.files := by
    apply Halts.bind (tick_returns (Q := Begun env) env.time).halts
    intro _
    apply Halts.observedAt
    intro w begun
    split
    · exact Halts.stop fun _ _ => .inl rfl
    · next rows later returned =>
        obtain ⟨distinct, size⟩ :=
          ClassifyOutput.sampleLoop_distinct List.nodup_nil (Nat.zero_le _) returned
        let inPat := ClassifyOutput.constInPat env.ioNames rows
        have classified : Classified iogen.golden
            (ClassifyOutput.classifyPO n (iogen.run inPat) : Fin m → ℕ) := by
          refine ⟨rows.map ClassifyOutput.mirrored, distinct.map mirrored_injective, by simp [size],
            fun j => ?_⟩
          simp only [inPat, equipped.names]
          exact ClassifyOutput.classifyPO_run iogen size j
        have answered : env.iogen inPat = some (iogen.run inPat) := by
          simp only [inPat, equipped.names]
          exact equipped.served _ _ (ClassifyOutput.mirrored_ne_nil size)
            (ClassifyOutput.words_constInPat io size)
        let Asked (files : Text → Option Text) : Prop := Begun env files ∧
          files (lit "beyond_classify_constant_in_pat.txt") = some inPat
        let Answered (files : Text → Option Text) : Prop := Begun env files ∧
          files (lit "beyond_classify_constant_io_rel.txt") = some (iogen.run inPat)
        have simulated : Returns (fun w => Asked w.files) (runTool env.iogen
            (lit "beyond_classify_constant_in_pat.txt") (lit "beyond_classify_constant_io_rel.txt"))
            fun _ w => Answered w.files :=
          runTool_returns (fun files asked => asked.2) answered fun files asked =>
            ⟨asked.1.write (by decide) (by decide) _, Function.update_self _ _ _⟩
        suffices whole : Returns (fun w : World Text Text Counters => Begun env w.files) _ _ from
          Halts.weaken whole.halts (fun _ same => same ▸ begun) (fun _ _ finish => finish)
            fun _ _ quiet => quiet
        apply Returns.bind (setDraws_returns (Q := Begun env) later)
        intro _
        apply Returns.writeFile (Q := Begun env) (R := Asked) _ _ fun files begun =>
          ⟨begun.write (by decide) (by decide) _, Function.update_self _ _ _⟩
        apply Returns.bind simulated
        intro _
        apply Returns.openFile (Q := Answered) Halt.exit fun files answered => answered.2
        exact Returns.pure _ fun _ answered => ⟨classified, answered.1⟩
  have positive := (checkConstOutput_positive env).weaken
    (fun w (_ : Begun env w.files) => trivial) fun _ _ positive => positive
  exact (counted.and positive).weaken (fun _ begun => begun) (fun _ _ finish =>
    ⟨⟨finish.1.1, finish.2⟩, finish.1.2⟩) fun _ _ quiet => quiet

/-- A known text without short lines is rewritten to the end. -/
theorem modifyVerilogFormat_returns {Q R : (Text → Option Text) → Prop} {source target text : Text}
    (different : source ≠ target) (noShort : Verilog.NoShort text)
    (known : ∀ files, Q files → files source = some text)
    (written : ∀ files, Q files →
      R (Function.update files target (some (Verilog.modifyVerilogFormat text)))) :
    Returns (fun w => Q w.files) (modifyVerilogFormat source target) fun _ w => R w.files := by
  apply Returns.readFile known
  rw [if_neg different, Option.getD_some, modifyLines, if_neg (Bool.eq_false_iff.mp noShort)]
  apply Returns.writeFile (R := R) _ _ written
  exact Returns.pure _ fun _ holds => holds

include equipped in
/-- The optimiser writes the first circuit. -/
theorem abcOptimization_optimised {text : Text} {first : (Fin n → Bool) → Fin m → Bool}
    (describes : Blif.Describes text (lit "main_circuit") (io.names.take n)
      (List.ofFn fun k => io.output k ++ lit "_main") first) :
    Returns (fun w => w.files (lit "beyond_circuit.blif") = some text ∧ Clean m w.files)
      (abcOptimization env (lit "beyond_circuit.blif") (lit "beyond_original_circuit.v"))
      fun _ w => ∃ net, Maps net (lit "main_circuit") (io.names.take n)
        (List.ofFn fun k => io.output k ++ lit "_main") first ∧
          w.files (lit "beyond_original_circuit.v") = some (writeVerilog net) ∧ Clean m w.files := by
  have script : lit "beyond_circuit.blif" ≠ lit "beyond_run.script" := by decide
  have apart : lit "beyond_circuit.blif" ≠ lit "beyond_original_circuit.v" := by decide
  have maps := abcOptimization_maps equipped.abc (mappable_main equipped.regular equipped.observed)
    describes script apart
  have outside : lit "beyond_original_circuit.v" ∉ faultFiles m := notMem_faultFiles (by decide)
  have kept := clean_of_keeps (abcOptimization_local env (Set.mem_univ (lit "beyond_circuit.blif"))
    (.inl (Set.mem_univ _)) outside).keeps
  refine ((maps.weaken (fun w (start : w.files (lit "beyond_circuit.blif") = some text ∧
    Clean m w.files) => start.1) fun _ _ found => found).and (kept.weaken (fun w start => start.2)
      fun _ _ clean => clean)).weaken (fun _ start => start) ?_
  rintro _ w ⟨⟨-, net, found, maps⟩, clean⟩
  exact ⟨net, maps, found, clean⟩

/-- Before the repair no output is done. -/
theorem modifyVerilogFormat_progress {golden first : (Fin n → Bool) → Fin m → Bool}
    {drawn : Fin m → List (Fin n → Bool) → Prop} {realPI : Fin m → List (Fin n)} {net : Network}
    (legible : net.Legible) :
    Returns (fun w => w.files (lit "beyond_original_circuit.v") = some (writeVerilog net) ∧
        Clean m w.files)
      (modifyVerilogFormat (lit "beyond_original_circuit.v") (lit "beyond_before_fix_circuit.v"))
      fun _ w => Progress io golden first drawn realPI net [] w.files := by
  let Q (files : Text → Option Text) : Prop :=
    files (lit "beyond_original_circuit.v") = some (writeVerilog net) ∧ Clean m files
  let R (files : Text → Option Text) : Prop :=
    Progress io golden first drawn realPI net [] files
  refine modifyVerilogFormat_returns (Q := Q) (R := R) (by decide)
    (Verilog.noShort_writeVerilog legible) (fun files start => start.1) fun files start =>
      ⟨⟨?_, Function.update_self _ _ _⟩, fun i none => absurd none List.not_mem_nil, fun i _ b => ?_⟩
  · exact (Function.update_of_ne (by decide) _ _).trans start.1
  · exact (Function.update_of_ne (faultFile_ne (by decide)) _ _).trans (start.2 i b)

include equipped in
/-- The flattened circuit computes the learned function. -/
theorem mixVerilog_maps {first : (Fin n → Bool) → Fin m → Bool}
    {drawn : Fin m → List (Fin n → Bool) → Prop} {realPI : Fin m → List (Fin n)} {net : Network}
    (maps : Maps net (lit "main_circuit") (io.names.take n)
      (List.ofFn fun k => io.output k ++ lit "_main") first) :
    Steady env False
      (fun w => Progress io iogen.golden first drawn realPI net (List.finRange m) w.files)
      (mixVerilog env) fun _ w => ∃ tested, (∀ i, drawn i (tested i)) ∧ ∃ flat,
        w.files (lit "beyond_after_flatten_circuit.v") = some (writeVerilog flat) ∧
        Maps flat (lit "top") (List.ofFn io.input) (List.ofFn io.output)
          (learnedFunction iogen.golden first realPI tested) := by
  apply Halts.observedAt
  intro w progress
  apply Halts.observedAt
  rintro v rfl
  have each := fun i : Fin m => progress.repaired i (List.mem_finRange i)
  choose tested drawn repaired using each
  obtain ⟨modules, top, read, design, name, inputs, outputs, computes⟩ :=
    mixed_design repaired equipped.regular equipped.observed progress.optimised maps
  have noShort := mixed_noShort repaired equipped.regular progress.optimised maps
  have mappable : Mappable top.name top.inputs top.outputs n m := by
    rw [name, inputs, outputs]
    exact mappable_top equipped.regular equipped.observed
  rw [← name] at computes
  obtain ⟨flat, written, own⟩ := equipped.abc.verilog read design mappable computes
  rw [name, inputs, outputs] at own
  rw [equipped.names]
  let mixed := mixCircuit v.files io.names n m
  let Mixed (files : Text → Option Text) : Prop := files (lit "beyond_mix_circuit.v") = some mixed
  let Rewritten (files : Text → Option Text) : Prop :=
    files (lit "beyond_before_flatten_circuit.v") = some (Verilog.modifyVerilogFormat mixed)
  let Flattened (files : Text → Option Text) : Prop :=
    files (lit "beyond_after_flatten_circuit.v") = some (writeVerilog flat)
  have flattened : Returns (fun w => Rewritten w.files) (runTool (env.abc Verilog.mixScript)
      (lit "beyond_before_flatten_circuit.v") (lit "beyond_after_flatten_circuit.v"))
      fun _ w => Flattened w.files := by
    apply runTool_returns (R := Flattened) (fun files found => found) written
    exact fun files _ => Function.update_self _ _ _
  suffices whole : Returns (fun _ : World Text Text Counters => True) _ _ from
    Halts.weaken whole.halts (fun _ _ => trivial) (fun _ _ finish => finish) fun _ _ quiet => quiet
  apply Returns.writeFile (Q := fun _ => True) (R := Mixed) _ _ fun files _ => Function.update_self _ _ _
  apply Returns.bind (modifyVerilogFormat_returns (Q := Mixed) (R := Rewritten) (by decide) noShort
    (fun files found => found) fun files _ => Function.update_self _ _ _)
  intro _
  apply Returns.writeFile (Q := Rewritten) (R := Rewritten) _ _ fun files found =>
    (Function.update_of_ne (by decide) _ _).trans found
  apply Returns.bind flattened
  intro _
  exact Returns.pure _ fun _ found => ⟨tested, drawn, flat, found, own⟩

include equipped in
/-- The circuit that is written computes the function, and the last steps leave it alone. -/
theorem circuit_isCircuit (solid : isTemporary env.circuitName = false)
    {f : (Fin n → Bool) → Fin m → Bool} {flat : Network}
    (maps : Maps flat (lit "top") (List.ofFn io.input) (List.ofFn io.output) f)
    (found status : Fin m → Bool × Bool) :
    Returns (fun w => w.files (lit "beyond_after_flatten_circuit.v") = some (writeVerilog flat))
      (do let _ ← modifyVerilogFormat (lit "beyond_after_flatten_circuit.v") env.circuitName
          cleanUp env found status)
      fun _ w => ∃ text, w.files env.circuitName = some text ∧
        IsCircuit text (lit "top") (List.ofFn io.input) (List.ofFn io.output) f := by
  let Q (files : Text → Option Text) : Prop :=
    files (lit "beyond_after_flatten_circuit.v") = some (writeVerilog flat)
  let R (files : Text → Option Text) : Prop :=
    files env.circuitName = some (Verilog.modifyVerilogFormat (writeVerilog flat))
  -- the circuit is no temporary file
  have different : lit "beyond_after_flatten_circuit.v" ≠ env.circuitName := by
    intro same
    rw [← same] at solid
    exact absurd solid (by decide)
  apply Returns.bind (modifyVerilogFormat_returns (Q := Q) (R := R) different
    (Verilog.noShort_writeVerilog maps.realizes.legible) (fun files start => start)
    fun files _ => Function.update_self _ _ _)
  intro _
  apply Returns.bind (tick_returns (Q := R) env.time)
  intro _
  apply Returns.observed
  intro mixCircuit
  have removed : Returns (fun w => R w.files) (update (World.remove isTemporary) : Stage Unit)
      fun _ w => R w.files :=
    Returns.update _ fun w circuit => (if_neg (by simp [solid])).trans circuit
  apply Returns.bind removed
  intro _
  refine Returns.pure _ fun _ kept => ⟨_, kept, ?_⟩
  exact maps.isCircuit (mappable_top equipped.regular equipped.observed)

end Stages

section Run

variable {env : Environment n m} {io : IoNames n m} {iogen : Iogen io}

/-- The function of the first circuit of a run. -/
def firstOf (env : Environment n m) (iogen : Iogen io) (classifyPO : Fin m → ℕ) :
    (Fin n → Bool) → Fin m → Bool :=
  firstFunction iogen env.atof classifyPO (env.decideUpLimit classifyPO).1 (some env.dummyInfo)

/-- The real inputs that the repair tests. -/
def realOf (env : Environment n m) (classifyPO : Fin m → ℕ) : Fin m → List (Fin n) :=
  collectedPI env classifyPO (some env.dummyInfoEx)

/-- The patterns at which an output is tested: those of a call of the run, or none if the output is not
listed. -/
def Drawn (env : Environment n m) (files : Text → Option Text) (classifyPO : Fin m → ℕ) (i : Fin m)
    (tested : List (Fin n → Bool)) : Prop :=
  if i ∈ (env.decideUpLimit classifyPO).2 then ∃ call, Called env files call ∧ call.i = i ∧
    call.realPI = realOf env classifyPO i ∧ call.Makes env tested
  else tested = []

/-- A file is a circuit of the function that was learned with this classification and these
patterns. -/
structure Learned (env : Environment n m) (iogen : Iogen io) (files : Text → Option Text) (text : Text)
    (classifyPO : Fin m → ℕ) (tested : Fin m → List (Fin n → Bool)) : Prop where
  classified : Classified iogen.golden classifyPO
  drawn : ∀ i, Drawn env files classifyPO i (tested i)
  circuit : IsCircuit text (lit "top") (List.ofFn io.input) (List.ofFn io.output)
    (learnedFunction iogen.golden (firstOf env iogen classifyPO) (realOf env classifyPO) tested)

/-- What the second loop gets with this classification and this first circuit. -/
structure Known (env : Environment n m) (iogen : Iogen io) (classifyPO : Fin m → ℕ) (net : Network)
    (prepared : Prepared n m) : Prop where
  classified : Classified iogen.golden classifyPO
  positive : 0 < n
  maps : Maps net (lit "main_circuit") (io.names.take n)
    (List.ofFn fun k => io.output k ++ lit "_main") (firstOf env iogen classifyPO)
  listed : ∀ i, i ∈ prepared.notTruthTablePO ↔ i ∈ (env.decideUpLimit classifyPO).2
  lists : prepared.realPIToPO = (List.finRange m).map (realOf env classifyPO)

/-- The second loop has come to this place. -/
def Learning (env : Environment n m) (iogen : Iogen io) (files : Text → Option Text)
    (prepared : Prepared n m) (done : List (Fin m)) (now : Text → Option Text) : Prop :=
  ∃ classifyPO net, Known env iogen classifyPO net prepared ∧
    Progress io iogen.golden (firstOf env iogen classifyPO) (Drawn env files classifyPO)
      (realOf env classifyPO) net done now

/-- The header of the circuit file is there as well. -/
structure Headed (env : Environment n m) (files : Text → Option Text) : Prop where
  written : Written (some env.dummyInfo) (some env.dummyInfoEx)
    (WriteBlif.writeBlifHeader n m env.ioNames) files
  clean : Clean m files

theorem writeBlifHeader_headed : Returns (fun w => Begun env w.files) (writeBlifHeader env)
    fun _ w => Headed env w.files := by
  refine Returns.update _ fun w begun => ?_
  have next : Begun env (w.write (lit "beyond_circuit.blif")
      (WriteBlif.writeBlifHeader n m env.ioNames)).files := begun.write (by decide) (by decide) _
  exact ⟨⟨next.log, next.logEx, World.write_files_self _ _ _⟩, next.clean⟩

/-- The tables of the outputs make up the circuit file, and the real inputs are collected. -/
theorem writeOutputs_headed (classifyPO upLimit : Fin m → ℕ) (positive : 0 < n)
    (answers : Answers env classifyPO upLimit (some env.dummyInfo) (some env.dummyInfoEx)) :
    Returns (fun w => Headed env w.files) (writeOutputs env classifyPO upLimit)
      fun lists w => lists = (List.finRange m).map (realOf env classifyPO) ∧
        w.files (lit "beyond_circuit.blif") = some (circuitText env classifyPO upLimit
          (some env.dummyInfo) (some env.dummyInfoEx)) ∧ Clean m w.files := by
  have written := @writeOutputs_collects n m env (some env.dummyInfo) (some env.dummyInfoEx)
    (WriteBlif.writeBlifHeader n m env.ioNames) classifyPO upLimit positive answers
  have kept := clean_of_keeps (writeOutputs_local (m := m) env (Answered.univ env) (Set.mem_univ _)
    (Set.mem_univ _) (Set.mem_univ _) positive classifyPO upLimit).keeps
  refine ((written.weaken (fun w (headed : Headed env w.files) => headed.written)
    fun _ _ done => done).and (kept.weaken (fun w headed => headed.clean)
      fun _ _ clean => clean)).weaken (fun _ headed => headed) ?_
  rintro lists w ⟨⟨collected, text⟩, clean⟩
  exact ⟨collected, text.circuit, clean⟩

variable (equipped : Equipped env io iogen) (solid : isTemporary env.circuitName = false)
  (tabulated : ∀ classifyPO, Classified iogen.golden classifyPO → ∀ i,
    Tabulated env classifyPO (env.decideUpLimit classifyPO).1 (some env.dummyInfo) i)
include equipped solid tabulated

omit solid in
/-- The stages before the second loop write the first circuit. -/
theorem prepare_learned (files : Text → Option Text) : Steady env False (fun w => Clean m w.files)
    (prepare env) fun prepared w => Learning env iogen files prepared [] w.files := by
  apply Halts.bind (tick_returns (Q := Clean m) env.time).halts
  intro start
  apply Halts.bind buildDummyInfo_begun.halts
  intro _
  apply Halts.bind (checkConstOutput_classified equipped)
  intro classifyPO
  apply Halts.fact
  rintro ⟨classified, positive⟩
  let upLimit := (env.decideUpLimit classifyPO).1
  let log := some env.dummyInfo
  let logEx := some env.dummyInfoEx
  apply Halts.bind writeBlifHeader_headed.halts
  intro _
  apply Halts.bind (tick_returns (Q := Headed env) env.time).halts
  intro _
  have answers : Answers env classifyPO upLimit log logEx :=
    answers_of_tabulated equipped.names iogen equipped.served (tabulated classifyPO classified)
  apply Halts.bind (writeOutputs_headed classifyPO upLimit positive answers).halts
  intro realPIToPO
  apply Halts.fact
  rintro rfl
  -- the first circuit
  have describes : Blif.Describes (circuitText env classifyPO upLimit log logEx) (lit "main_circuit")
      (io.names.take n) (List.ofFn fun k => io.output k ++ lit "_main")
      (firstOf env iogen classifyPO) :=
    circuitText_describes equipped.names iogen equipped.served (tabulated classifyPO classified)
  apply Halts.bind (abcOptimization_optimised equipped describes).halts
  intro _
  apply Halts.named
  intro net
  apply Halts.fact
  intro maps
  let Original (files : Text → Option Text) : Prop :=
    files (lit "beyond_original_circuit.v") = some (writeVerilog net) ∧ Clean m files
  apply Halts.bind (tick_returns (Q := Original) env.time).halts
  intro _
  let Done (now : Text → Option Text) : Prop :=
    Progress io iogen.golden (firstOf env iogen classifyPO) (Drawn env files classifyPO)
      (realOf env classifyPO) net [] now
  have prepared : Returns (fun w => Original w.files)
      (modifyVerilogFormat (lit "beyond_original_circuit.v") (lit "beyond_before_fix_circuit.v"))
      fun _ w => Done w.files := modifyVerilogFormat_progress maps.realizes.legible
  apply Halts.bind prepared.halts
  intro gatecnt0
  apply Halts.bind (tick_returns (Q := Done) env.time).halts
  intro _
  refine Halts.pure _ fun w done => ⟨classifyPO, net, ⟨classified, positive, maps, fun i => ?_, rfl⟩, done⟩
  exact List.mem_insertionSort _

omit solid tabulated in
/-- A round of the second loop tests its output. -/
theorem round_learned {files : Text → Option Text} {prepared : Prepared n m} {done : List (Fin m)}
    {i : Fin m} (later : i ∉ done) {state : FixState m} {w : World Text Text Counters}
    (learning : Learning env iogen files prepared done w.files)
    (comes : Comes env files prepared state w i) :
    Steady env (∃ call, Called env files call ∧ call.Makes env []) (· = w)
      (prepared.round env state i)
      fun _ v => Learning env iogen files prepared (done ++ [i]) v.files := by
  obtain ⟨classifyPO, net, known, progress⟩ := learning
  have real : (prepared.call env state w i).realPI = realOf env classifyPO i := by
    change prepared.realPIToPO.getD i [] = _
    rw [known.lists]
    simp
  have called (listed : i ∈ prepared.notTruthTablePO) :
      Called env files (prepared.call env state w i) := ⟨prepared, state, w, i, comes, listed, rfl⟩
  refine (round_progress equipped.names iogen equipped.served equipped.ncverilog equipped.regular
    equipped.faithful known.positive equipped.abc known.maps equipped.observed known.lists later state
    progress (fun listed tested makes => ?_) fun unlisted => ?_).weaken (fun _ same => same)
      (fun _ v next => ⟨classifyPO, net, known, next⟩) fun reason v quiet => ?_
  · exact (if_pos ((known.listed i).mp listed)).mpr ⟨_, called listed, rfl, real, makes⟩
  · exact (if_neg fun listed => unlisted ((known.listed i).mpr listed)).mpr rfl
  · refine quiet.imp_right fun untested => ⟨untested.1, ?_, untested.2.2⟩
    exact ⟨_, called untested.2.1.1, untested.2.1.2⟩

omit tabulated in
/-- A run that gives a report has written a circuit of the learned function. -/
theorem finish_learned {files : Text → Option Text} {prepared : Prepared n m} (fixed : FixState m) :
    Steady env False
      (fun w => Learning env iogen files prepared (List.finRange m) w.files) (finish env fixed)
      fun _ w => ∃ text classifyPO tested, w.files env.circuitName = some text ∧
        Learned env iogen files text classifyPO tested := by
  apply Halts.named
  intro classifyPO
  apply Halts.named
  intro net
  apply Halts.fact
  intro known
  let Done (now : Text → Option Text) : Prop :=
    Progress io iogen.golden (firstOf env iogen classifyPO) (Drawn env files classifyPO)
      (realOf env classifyPO) net (List.finRange m) now
  apply Halts.bind (tick_returns (Q := Done) env.time).halts
  intro _
  apply Halts.bind (mixVerilog_maps equipped known.maps)
  intro status
  apply Halts.named
  intro tested
  apply Halts.fact
  intro drawn
  apply Halts.named
  intro flat
  let Flattened (files : Text → Option Text) : Prop :=
    files (lit "beyond_after_flatten_circuit.v") = some (writeVerilog flat) ∧
      Maps flat (lit "top") (List.ofFn io.input) (List.ofFn io.output)
        (learnedFunction iogen.golden (firstOf env iogen classifyPO) (realOf env classifyPO) tested)
  apply Halts.bind ((tick_returns (Q := Flattened) env.time).weaken (fun _ start => start)
    fun _ _ flattened => flattened.symm).halts
  intro _
  apply Halts.fact
  intro maps
  refine (circuit_isCircuit equipped solid maps fixed.found status).halts.weaken (fun _ start => start)
    ?_ fun _ _ quiet => quiet
  rintro _ w ⟨text, found, circuit⟩
  exact ⟨text, classifyPO, tested, found, known.classified, drawn, circuit⟩

omit solid tabulated in
theorem Equipped.withFuel (fuel : ℕ) : Equipped (env.withFuel fuel) io iogen :=
  ⟨equipped.names, equipped.served, equipped.abc, equipped.ncverilog, equipped.regular,
    equipped.faithful, equipped.observed⟩

omit equipped solid tabulated in
theorem learning_withFuel {files now : Text → Option Text} {prepared : Prepared n m}
    {done : List (Fin m)} (fuel : ℕ) : Learning (env.withFuel fuel) iogen files prepared done now ↔
      Learning env iogen files prepared done now := by
  constructor
  · rintro ⟨classifyPO, net, known, progress⟩
    exact ⟨classifyPO, net, ⟨known.classified, known.positive, known.maps, known.listed, known.lists⟩,
      progress⟩
  · rintro ⟨classifyPO, net, known, progress⟩
    exact ⟨classifyPO, net, ⟨known.classified, known.positive, known.maps, known.listed, known.lists⟩,
      progress⟩

/-- The run comes to a call that makes no patterns, and the simulator has no answer to a file without
patterns. -/
structure Untested (env : Environment n m) (files : Text → Option Text)
    (w : World Text Text Counters) : Prop where
  called : ∃ call, Called env files call ∧ call.Makes env []
  silent : env.iogen (fixInPat env.ioNames ([] : List (Fin n → Bool))) = none
  missing : w.files (lit "beyond_fix_io_rel.txt") = none

/-- How such a run may stop early, with no other file changed: in a sampling loop that never ends, or
because there is no file of the simulator for an output without test patterns. -/
structure Interrupted (env : Environment n m) (files : Text → Option Text) (reason : Halt)
    (w : World Text Text Counters) : Prop where
  cause : reason = .endless ∧ Unending env files ∨ reason = .exit ∧ Untested env files w
  others : ∀ name, isTemporary name = false → w.files name = files name

omit equipped solid tabulated in
theorem interrupted_of_quiet {files : Text → Option Text} {untested : Prop} {reason : Halt}
    {w : World Text Text Counters} (called : untested → ∃ call, Called env files call ∧ call.Makes env [])
    (abandoned : Abandoned env files reason w) (quiet : Quiet env untested reason w) :
    Interrupted env files reason w where
  cause := by
    rcases quiet with rfl | ⟨rfl, none, silent, missing⟩
    · exact .inl ⟨rfl, abandoned.stopped⟩
    · exact .inr ⟨rfl, called none, silent, missing⟩
  others name solid := by
    refine abandoned.others name solid fun _ => ?_
    rcases quiet with rfl | ⟨rfl, -⟩
    · decide
    · decide

/-- With enough room a run ends in one way: it gives a report, or it is interrupted. -/
theorem main_settles {files : Text → Option Text} (clean : Clean m files)
    {after : Report m → World Text Text Counters → Prop}
    (learned : ∀ report w, (∃ text classifyPO tested, w.files env.circuitName = some text ∧
      Learned env iogen files text classifyPO tested) → after report w) :
    Settles (· = startIn files) (fun fuel => main (env.withFuel fuel)) after
      (Interrupted env files) := by
  let Reached (prepared : Prepared n m) (done : List (Fin m)) (w : World Text Text Counters) : Prop :=
    Spared files w ∧ Learning env iogen files prepared done w.files
  refine main_of_phases (I := Reached) ?_ ?_ ?_
  · have each (fuel : ℕ) : Steady env False (· = startIn files) (prepare (env.withFuel fuel))
        fun prepared w => Learning env iogen files prepared [] w.files := by
      refine (prepare_learned (equipped.withFuel fuel) ?_ files).weaken
        (fun w same => same ▸ clean) (fun _ _ => (learning_withFuel fuel).mp) fun _ _ quiet => quiet
      exact fun classifyPO classified i => ⟨(tabulated classifyPO classified i).small,
        (tabulated classifyPO classified i).kept⟩
    exact ((prepare_spares env files).and each).weaken (fun _ same => same) (fun _ _ both => both)
      fun _ _ both => interrupted_of_quiet False.elim both.1 both.2
  · intro prepared done i later state w split reached comes
    have distinct := split ▸ List.nodup_finRange m
    have fresh : i ∉ done := fun inside =>
      (List.nodup_append.mp distinct).2.2 i inside i (by simp) rfl
    have each (fuel : ℕ) : Steady env (∃ call, Called env files call ∧ call.Makes env []) (· = w)
        (prepared.round (env.withFuel fuel) state i)
        fun _ v => Learning env iogen files prepared (done ++ [i]) v.files :=
      (round_learned (equipped.withFuel fuel) fresh ((learning_withFuel fuel).mpr reached.2)
        comes).weaken (fun _ same => same) (fun _ _ => (learning_withFuel fuel).mp)
          fun _ _ quiet => quiet
    exact ((round_spares env files comes reached.1).and each).weaken (fun _ same => same)
      (fun _ _ both => both) fun _ _ both => interrupted_of_quiet id both.1 both.2
  · intro prepared fixed
    have each (fuel : ℕ) : Steady env False (Reached prepared (List.finRange m))
        (finish (env.withFuel fuel) fixed) fun _ w => ∃ text classifyPO tested,
          w.files env.circuitName = some text ∧ Learned env iogen files text classifyPO tested :=
      (finish_learned (equipped.withFuel fuel) solid fixed).weaken
        (fun _ reached => (learning_withFuel fuel).mpr reached.2)
        (fun _ _ ⟨text, classifyPO, tested, found, own⟩ => ⟨text, classifyPO, tested, found,
          own.classified, own.drawn, own.circuit⟩) fun _ _ quiet => quiet
    have spares := (finish_spares env files fixed).weaken
      (fun w (reached : Reached prepared (List.finRange m) w) => reached.1) (fun _ _ done => done)
      fun _ _ stopped => stopped
    exact (spares.and each).weaken (fun _ reached => reached)
      (fun report w both => learned report w both.2)
      fun _ _ both => interrupted_of_quiet False.elim both.1 both.2

/-- With enough room a run gives a report when its sampling loops end and each of its calls makes
patterns. -/
theorem main_reports {files : Text → Option Text} (clean : Clean m files)
    (ending : ¬ Unending env files) (tested : ∀ call, Called env files call → ¬ call.Makes env []) :
    ∃ enough, ∀ fuel ≥ enough, ∃ report w,
      main (env.withFuel fuel) (startIn files) = (.ok report, w) := by
  have settles : Settles (· = startIn files) (fun fuel => main (env.withFuel fuel)) (fun _ _ => True)
      (Interrupted env files) := main_settles equipped solid tabulated clean fun _ _ _ => trivial
  obtain ⟨enough, ⟨reason | report, w⟩, settled, ends⟩ := settles _ rfl
  · rcases ends.cause with ⟨-, unending⟩ | ⟨-, untested⟩
    · exact absurd unending ending
    · obtain ⟨call, called, makes⟩ := untested.called
      exact absurd makes (tested call called)
  · exact ⟨enough, fun fuel large => ⟨report, w, settled fuel large⟩⟩

end Run

section Sample

end Sample

section Correct

end Correct

section Accuracy

variable {env : Environment n m} {io : IoNames n m} (iogen : Iogen io)

end Accuracy

end LogicRegression.Main
