import LogicRegression.Construction.Main

namespace LogicRegression.Main

open Text Program

variable {n m : ℕ}

/-- The files from whose existence the fault flags of the outputs are inferred. -/
def faultFiles (m : ℕ) : Set Text :=
  { name | ∃ i : Fin m, ∃ b : Fin 2, name = faultFile i b (lit ".blif") }

theorem faultFile_mem (i : Fin m) (b : Fin 2) : faultFile i b (lit ".blif") ∈ faultFiles m :=
  ⟨i, b, rfl⟩

/-- The names of fault files start in their own way. -/
theorem notMem_faultFiles {name : Text} (apart : name.take 9 ≠ lit "beyond_PO") :
    name ∉ faultFiles m := by
  rintro ⟨i, b, rfl⟩
  apply apart
  rw [faultFile, MixVerilog.faultName, List.append_assoc, List.append_assoc, List.append_assoc]
  rfl

/-- The files that `iogen` writes for a run. -/
def iogenFiles : Set Text :=
  { lit "beyond_classify_constant_io_rel.txt", lit "beyond_to_satOpt.txt",
    lit "beyond_fix_io_rel.txt" }

/-- The files that `abc` writes for a run. -/
def abcFiles (m : ℕ) : Set Text :=
  { lit "beyond_original_circuit.v", lit "beyond_after_flatten_circuit.v" } ∪
    { name | ∃ i : Fin m, ∃ b : Fin 2, name = faultFile i b (lit ".v") }

/-- Each file that a tool writes is known before, or the tool writes it at every call. -/
structure Answered (env : Environment n m) (known : Set Text) : Prop where
  iogen : ∀ name ∈ iogenFiles, name ∈ known ∨ ∀ file, (env.iogen file).isSome
  abc : ∀ name ∈ abcFiles m, name ∈ known ∨ ∀ script file, (env.abc script file).isSome
  ncverilog : lit "beyond_fixnetwork_verify_log.txt" ∈ known ∨
    ∀ testbench circuit inPat, (env.ncverilog testbench circuit inPat).1.isSome

theorem Answered.mono {env : Environment n m} {known later : Set Text} (answered : Answered env known)
    (subset : known ⊆ later) : Answered env later where
  iogen name listed := (answered.iogen name listed).imp_left (subset ·)
  abc name listed := (answered.abc name listed).imp_left (subset ·)
  ncverilog := answered.ncverilog.imp_left (subset ·)

theorem Answered.univ (env : Environment n m) : Answered env Set.univ where
  iogen _ _ := .inl trivial
  abc _ _ := .inl trivial
  ncverilog := .inl trivial

theorem Answered.script {env : Environment n m} {known : Set Text} (answered : Answered env known)
    {name : Text} (listed : name ∈ abcFiles m) (script : Text) :
    name ∈ known ∨ ∀ file, (env.abc script file).isSome :=
  (answered.abc name listed).imp_right fun always file => always script file

theorem faultVerilog_mem (i : Fin m) (b : Fin 2) : faultFile i b (lit ".v") ∈ abcFiles m :=
  .inr ⟨i, b, rfl⟩

/-- A stage leaves the fault files alone and depends on the known files only. -/
abbrev Local {A : Type} (m : ℕ) (known : Set Text) (stage : Stage A) (later : Set Text) : Prop :=
  Confined (faultFiles m) known stage later

section Primitives

variable {known : Set Text}

theorem tick_local (time : ℕ → ℤ) : Local m known (tick time) known := by
  apply Confined.bind (Confined.observeInner Counters.readings)
  intro readings
  apply Confined.bind (Confined.updateInner fun c : Counters => ⟨c.draws, c.readings + 1⟩)
  exact fun _ => Confined.pure _

theorem setDraws_local (count : ℕ) : Local m known (setDraws count) known :=
  Confined.updateInner fun c : Counters => ⟨count, c.readings⟩

theorem appendFile_local {name : Text} (listed : name ∈ known) (apart : name ∉ faultFiles m)
    (text : Text) : Local m known (appendFile name text) known := by
  apply Confined.bind (Confined.readFile listed)
  intro old
  exact Confined.weaken (Confined.writeFile apart _) subset_rfl (Set.subset_insert _ _)

/-- Without an answer the file stays what it was, so it has to be known. -/
theorem writeAnswer_local {output : Text} {answer : Option Text}
    (answered : output ∈ known ∨ answer.isSome) (apart : output ∉ faultFiles m) :
    Local m known (writeAnswer output answer) (insert output known) := by
  cases answer with
  | none =>
      have listed : output ∈ known := answered.resolve_right (by simp)
      rw [Set.insert_eq_of_mem listed]
      exact Confined.pure ()
  | some answer => exact Confined.writeFile apart answer

theorem runTool_local {tool : Text → Option Text} {input output : Text} (listed : input ∈ known)
    (answered : output ∈ known ∨ ∀ file, (tool file).isSome) (apart : output ∉ faultFiles m) :
    Local m known (runTool tool input output) (insert output known) := by
  apply Confined.bind (Confined.readFile listed)
  intro file
  exact writeAnswer_local (answered.imp_right fun always => always _) apart

end Primitives

section Stages

variable (env : Environment n m) {known : Set Text}

theorem buildDummyInfo_local : Local m known (buildDummyInfo env)
    (insert (lit "beyond_DummyInfo_ex.log") (insert (lit "beyond_DummyInfo.log") known)) := by
  apply Confined.bind (Confined.writeFile (notMem_faultFiles (by decide)) _)
  exact fun _ => Confined.writeFile (notMem_faultFiles (by decide)) _

theorem checkConstOutput_local (answered : Answered env known) :
    Local m known (checkConstOutput env) known := by
  apply Confined.bind (tick_local env.time)
  intro _
  apply Confined.bind (Confined.observeInner Counters.draws)
  intro count
  split
  · exact Confined.stop _
  · next rows later _ =>
      apply Confined.bind (setDraws_local later)
      intro _
      apply Confined.bind (Confined.writeFile (notMem_faultFiles (by decide)) _)
      intro _
      apply Confined.bind (runTool_local (Set.mem_insert _ _)
        ((answered.mono (Set.subset_insert _ _)).iogen _ (by simp [iogenFiles]))
        (notMem_faultFiles (by decide)))
      intro _
      apply Confined.bind (Confined.openFile _ (Set.mem_insert _ _))
      intro ioRel
      exact Confined.weaken (Confined.pure _) subset_rfl
        ((Set.subset_insert _ _).trans (Set.subset_insert _ _))

theorem writeBlifHeader_local :
    Local m known (writeBlifHeader env) (insert (lit "beyond_circuit.blif") known) :=
  Confined.writeFile (notMem_faultFiles (by decide)) _

theorem abcOptimization_local {readBlifName writeVerilogName : Text} (listed : readBlifName ∈ known)
    (answered : writeVerilogName ∈ known ∨ ∀ script file, (env.abc script file).isSome)
    (apart : writeVerilogName ∉ faultFiles m) :
    Local m known (abcOptimization env readBlifName writeVerilogName)
      (insert writeVerilogName known) := by
  apply Confined.bind (Confined.readFile listed)
  intro file
  apply Confined.bind (Confined.writeFile (notMem_faultFiles (by decide)) _)
  intro _
  exact Confined.weaken (runTool_local (Set.mem_insert_of_mem _ listed)
    (answered.imp (Set.mem_insert_of_mem _) fun always file => always _ file) apart) subset_rfl
    (Set.insert_subset_insert (Set.subset_insert _ _))

theorem modifyLines_local {writeVerilogName : Text} (apart : writeVerilogName ∉ faultFiles m)
    (text : Text) :
    Local m known (modifyLines writeVerilogName text) (insert writeVerilogName known) := by
  rw [modifyLines]
  split
  · apply Confined.bind (Confined.writeFile apart _)
    exact fun _ => Confined.stop _
  · apply Confined.bind (Confined.writeFile apart _)
    exact fun _ => Confined.pure _

theorem modifyVerilogFormat_local {readVerilogName writeVerilogName : Text}
    (listed : readVerilogName ∈ known) (apart : writeVerilogName ∉ faultFiles m) :
    Local m known (modifyVerilogFormat readVerilogName writeVerilogName)
      (insert writeVerilogName known) := by
  apply Confined.bind (Confined.readFile listed)
  exact fun file => modifyLines_local apart _

section Circuit

variable (answered : Answered env known) (log : lit "beyond_DummyInfo.log" ∈ known)
  (logEx : lit "beyond_DummyInfo_ex.log" ∈ known)
  (circuit : lit "beyond_circuit.blif" ∈ known)

include answered log logEx in
theorem patternsGeneration_local (positive : 0 < n) (i : Fin m) (upLimit : ℕ) :
    Local m known (patternsGeneration env i upLimit)
      (insert (lit "beyond_to_satOpt.txt") known) := by
  rw [patternsGeneration, if_pos positive]
  apply Confined.bind (tick_local env.time)
  intro _
  apply Confined.bind (Confined.readFile log)
  intro log
  apply Confined.bind (Confined.readFile logEx)
  intro logEx
  apply Confined.bind (Confined.observeInner Counters.draws)
  intro count
  apply Confined.bind (setDraws_local (count + 1))
  intro _
  split
  · exact Confined.stop _
  · apply Confined.bind (Confined.writeFile (notMem_faultFiles (by decide)) _)
    intro _
    apply Confined.bind (runTool_local (Set.mem_insert _ _)
      ((answered.mono (Set.subset_insert _ _)).iogen _ (by simp [iogenFiles]))
      (notMem_faultFiles (by decide)))
    intro _
    exact Confined.weaken (Confined.pure _) subset_rfl
      (Set.insert_subset_insert (Set.subset_insert _ _))

theorem satOptimization_local (dummyPI : List ℕ) (i : Fin m) :
    Local m (insert (lit "beyond_to_satOpt.txt") known) (satOptimization env dummyPI i)
      (insert (lit "beyond_to_abcOpt.txt") known) := by
  apply Confined.bind (Confined.openFile _ (Set.mem_insert _ _))
  intro infile
  split
  · exact Confined.stop _
  · exact Confined.weaken (Confined.writeFile (notMem_faultFiles (by decide)) _) subset_rfl
      (Set.insert_subset_insert (Set.subset_insert _ _))

include circuit in
theorem writeBlif_local : Local m (insert (lit "beyond_to_abcOpt.txt") known) writeBlif known := by
  apply Confined.bind (Confined.openFile _ (Set.mem_insert _ _))
  intro optResult
  exact Confined.weaken (appendFile_local (Set.mem_insert_of_mem _ circuit)
    (notMem_faultFiles (by decide)) _) subset_rfl (Set.subset_insert _ _)

include answered log logEx circuit

/-- One round of the first loop writes every file before it reads it. -/
theorem writeOutput_local (positive : 0 < n) (classifyPO upLimit : Fin m → ℕ)
    (realPIToPO : List (List (Fin n))) (i : Fin m) :
    Local m known (writeOutput env classifyPO upLimit realPIToPO i) known := by
  rw [writeOutput]
  split
  · apply Confined.bind (appendFile_local circuit (notMem_faultFiles (by decide)) _)
    exact fun _ => Confined.pure _
  · split
    · apply Confined.bind (appendFile_local circuit (notMem_faultFiles (by decide)) _)
      exact fun _ => Confined.pure _
    · apply Confined.bind (patternsGeneration_local env answered log logEx positive i (upLimit i))
      intro lists
      apply Confined.bind (satOptimization_local env lists.1 i)
      intro _
      apply Confined.bind (writeBlif_local circuit)
      exact fun _ => Confined.pure _

theorem writeOutputs_local (positive : 0 < n) (classifyPO upLimit : Fin m → ℕ) :
    Local m known (writeOutputs env classifyPO upLimit) known := by
  apply Confined.bind (Confined.foldlM (fun i _ lists =>
    writeOutput_local env answered log logEx circuit positive classifyPO upLimit lists i) [])
  intro realPIToPO
  apply Confined.bind (appendFile_local circuit (notMem_faultFiles (by decide)) _)
  exact fun _ => Confined.pure _

end Circuit

section Repair

theorem runNcverilog_local (answered : Answered env known)
    (testbench : lit "beyond_fixnetwork_testbench.v" ∈ known)
    (circuit : lit "beyond_before_fix_circuit.v" ∈ known)
    (inPat : lit "beyond_fix_in_pat.txt" ∈ known) :
    Local m known (runNcverilog env)
      (insert (lit "beyond_fixnetwork_verify_log.txt") known) := by
  apply Confined.bind (Confined.readFile testbench)
  intro _
  apply Confined.bind (Confined.readFile circuit)
  intro _
  apply Confined.bind (Confined.readFile inPat)
  intro _
  apply Confined.bind (writeAnswer_local
    (answered.ncverilog.imp_right fun always => always _ _ _) (notMem_faultFiles (by decide)))
  intro _
  exact Confined.weaken (Confined.writeFile (notMem_faultFiles (by decide)) _) subset_rfl
    (Set.subset_insert _ _)

/-- The test of one output writes every file before it reads it. -/
theorem findFaults_local (answered : Answered env known)
    (circuit : lit "beyond_before_fix_circuit.v" ∈ known) (i : Fin m) (patternUpLimit : ℤ)
    (realPI : List (Fin n)) : Local m known (findFaults env i patternUpLimit realPI) known := by
  apply Confined.bind (Confined.observeInner Counters.draws)
  intro count
  split
  · exact Confined.stop _
  · next run later _ =>
      apply Confined.bind (setDraws_local later)
      intro _
      apply Confined.bind (tick_local env.time)
      intro _
      apply Confined.bind (Confined.writeFile (notMem_faultFiles (by decide)) _)
      intro _
      apply Confined.bind (Confined.writeFile (notMem_faultFiles (by decide)) _)
      intro _
      apply Confined.bind (runNcverilog_local env
        ((answered.mono (Set.subset_insert _ _)).mono (Set.subset_insert _ _))
        (by simp) (by simp [circuit]) (by simp))
      intro _
      apply Confined.bind (runTool_local (by simp)
        ((answered.mono fun name listed => by simp [listed]).iogen _ (by simp [iogenFiles]))
        (notMem_faultFiles (by decide)))
      intro _
      apply Confined.bind (Confined.openFile _ (by simp))
      intro verifyLog
      apply Confined.bind (Confined.openFile _ (by simp))
      intro fixIoRel
      apply Confined.weaken (Confined.pure _) subset_rfl
      intro name listed
      simp [listed]

end Repair

end Stages

end LogicRegression.Main
