import LogicRegression.Proof.Main.Flags

namespace LogicRegression.Main

open Text Program

variable {n m : ℕ} {known : Set Text}

/-- Both runs have written the same files. -/
abbrev SameLog (w v : World Text Text Counters) : Prop := w.produced = v.produced

/-- The Verilog files of one output with these flags. -/
def verilogOf (i : Fin m) (flags : Bool × Bool) : Set Text :=
  { name | ∃ c : Fin 2, bitOf flags c = true ∧ name = faultFile i c (lit ".v") }

/-- The Verilog files of all outputs with these flags. -/
def verilogFiles (found : Fin m → Bool × Bool) : Set Text :=
  { name | ∃ j, name ∈ verilogOf j (found j) }

section Repair

variable (env : Environment n m)

theorem tick_determined : Determined known (tick env.time) known :=
  have confined : Local m known (tick env.time) known := tick_local env.time
  confined.determined

/-- A list of faults that is not empty leaves its Verilog file behind. -/
theorem writeFault_determined (answered : Answered env known) (i : Fin m) (b : Fin 2)
    (patterns : List (Fin n → Bool)) (blif : Text) : Determined known (writeFault env i b patterns blif)
      (known ∪ { name | patterns ≠ [] ∧ name = faultFile i b (lit ".v") }) := by
  rw [writeFault]
  split
  · next nonempty =>
      apply Determined.bind (Determined.writeFile _ _)
      intro _
      apply Determined.weaken (abcOptimization_local env (Set.mem_insert _ _)
        ((answered.mono (Set.subset_insert _ _)).abc _ (faultVerilog_mem i b))
        (verilog_notMem_faultFiles (m := m) i b)).determined subset_rfl
      rintro name (old | ⟨-, rfl⟩)
      · exact Set.mem_insert_of_mem _ (Set.mem_insert_of_mem _ old)
      · exact Set.mem_insert _ _
  · next empty =>
      apply Determined.weaken (Determined.pure ()) subset_rfl
      rintro name (old | ⟨nonempty, -⟩)
      · exact old
      · exact absurd nonempty empty

/-- `FixNetwork` finds the same faults in both runs. -/
theorem fixNetwork_agrees (answered : Answered env known)
    (circuit : lit "beyond_before_fix_circuit.v" ∈ known) (i : Fin m) (patternUpLimit : ℤ) (realPI : List (Fin n)) :
    Agrees SameLog (World.Same known) (fixNetwork env i patternUpLimit realPI) fun flags =>
      World.Same (known ∪ verilogOf i flags) := by
  apply Agrees.bind (findFaults_local env answered circuit i patternUpLimit realPI).determined
  intro faults
  apply Agrees.bind (writeFault_determined env answered i 0 _ _)
  intro _
  apply Agrees.bind (writeFault_determined env
    (answered.mono Set.subset_union_left) i 1 _ _)
  intro _
  apply Agrees.pure _ (fun _ _ same => same.produced)
  intro w v same
  apply same.mono
  rintro name (old | ⟨c, raised, rfl⟩)
  · exact .inl (.inl old)
  · fin_cases c
    · exact .inl (.inr ⟨by simpa [bitOf] using raised, rfl⟩)
    · exact .inr ⟨by simpa [bitOf] using raised, rfl⟩

/-- One round of the second loop stays in step. -/
theorem fixOutput_agrees (answered : Answered env known)
    (circuit : lit "beyond_before_fix_circuit.v" ∈ known) (start : ℤ) (gatecnt : ℕ)
    (notTruthTablePO : List (Fin m)) (realPIToPO : List (List (Fin n))) (state : FixState m)
    (i : Fin m) :
    Agrees SameLog (World.Same (known ∪ verilogFiles state.found))
      (fixOutput env start gatecnt notTruthTablePO realPIToPO state i) fun state' =>
        World.Same (known ∪ verilogFiles state'.found) := by
  have ticks {later : Set Text} : Determined later (tick env.time) later := tick_determined env
  rw [fixOutput]
  split
  · apply Agrees.bind ticks
    intro now
    apply Agrees.bind ticks
    intro _
    apply Agrees.bind (fixNetwork_agrees env (answered.mono Set.subset_union_left) (.inl circuit) i _ _)
    intro flags
    apply Agrees.bind ticks
    intro _
    apply Agrees.pure _ (fun _ _ same => same.produced)
    intro w v same
    apply same.mono
    rintro name (old | ⟨j, listed⟩)
    · exact .inl (.inl old)
    · change name ∈ verilogOf j (Function.update state.found i flags j) at listed
      by_cases own : j = i
      · subst own
        rw [Function.update_self] at listed
        exact .inr listed
      · rw [Function.update_of_ne own] at listed
        exact .inl (.inr ⟨j, listed⟩)
  · exact Agrees.pure _ (fun _ _ same => same.produced) fun _ _ same => same

end Repair

section Mix

variable {files others : Text → Option Text}

/-- The mixed circuit depends on the flags, on two files and on the Verilog files of the flags. -/
theorem mixCircuit_congr (ioNames : List Text) (n : ℕ)
    (status : ∀ i < m, MixVerilog.faultStatus files i = MixVerilog.faultStatus others i)
    (original : files (lit "beyond_original_circuit.v") = others (lit "beyond_original_circuit.v"))
    (appended : ∀ name ∈ MixVerilog.appendedFiles m (MixVerilog.faultStatus files),
      files name = others name) :
    MixVerilog.mixCircuit files ioNames n m = MixVerilog.mixCircuit others ioNames n m := by
  have same (i : ℕ) (inside : i ∈ List.range m) := status i (List.mem_range.mp inside)
  have none : ((List.range m).all fun i => MixVerilog.faultStatus files i = (false, false)) =
      (List.range m).all fun i => MixVerilog.faultStatus others i = (false, false) := by
    rw [Bool.eq_iff_iff, List.all_eq_true, List.all_eq_true]
    exact forall₂_congr fun i inside => by rw [same i inside]
  have top : MixVerilog.topModule ioNames n m (MixVerilog.faultStatus files) =
      MixVerilog.topModule ioNames n m (MixVerilog.faultStatus others) := by
    rw [MixVerilog.topModule, MixVerilog.topModule]
    congr 1
    · exact List.flatMap_congr fun i inside => by rw [same i inside]
    · exact List.flatMap_congr fun i inside => by rw [same i inside]
    · congr 1
      exact List.flatMap_congr fun i inside => by rw [same i inside]
  have names : MixVerilog.appendedFiles m (MixVerilog.faultStatus others) =
      MixVerilog.appendedFiles m (MixVerilog.faultStatus files) := by
    rw [MixVerilog.appendedFiles, MixVerilog.appendedFiles]
    congr 1
    exact List.flatMap_congr fun i inside => by rw [same i inside]
  have copies : ((MixVerilog.appendedFiles m (MixVerilog.faultStatus files)).flatMap
      fun name => MixVerilog.copyLines (files name)) =
        (MixVerilog.appendedFiles m (MixVerilog.faultStatus files)).flatMap
          fun name => MixVerilog.copyLines (others name) :=
    List.flatMap_congr fun name inside => by rw [appended name inside]
  rw [MixVerilog.mixCircuit, MixVerilog.mixCircuit, none, top, names, copies, original]

/-- The files that are appended for some flags. -/
theorem mem_appendedFiles {found : Fin m → Bool × Bool} {faultStatus : ℕ → Bool × Bool}
    (status : ∀ i : Fin m, faultStatus i = found i) {name : Text}
    (listed : name ∈ MixVerilog.appendedFiles m faultStatus) :
    name = lit "beyond_before_fix_circuit.v" ∨ name ∈ verilogFiles found := by
  rw [MixVerilog.appendedFiles, List.mem_cons, List.mem_flatMap] at listed
  rcases listed with circuit | ⟨i, inside, own⟩
  · exact .inl circuit
  · right
    have flags := status ⟨i, List.mem_range.mp inside⟩
    rw [flags, List.mem_append] at own
    use ⟨i, List.mem_range.mp inside⟩
    rcases own with zero | one
    · use 0
      split at zero
      · next raised => exact ⟨raised, List.mem_singleton.mp zero⟩
      · cases zero
    · use 1
      split at one
      · next raised => exact ⟨raised, List.mem_singleton.mp one⟩
      · cases one

variable (env : Environment n m)

/-- `MixVerilog` writes the same circuit in both runs, with the flags that were found. -/
theorem mixVerilog_agrees (answered : Answered env known) {found : Fin m → Bool × Bool}
    (original : lit "beyond_original_circuit.v" ∈ known)
    (circuit : lit "beyond_before_fix_circuit.v" ∈ known) (faults : faultFiles m ⊆ known) :
    Agrees SameLog
      (fun w v => World.Same (known ∪ verilogFiles found) w v ∧ Flagged found w.files)
      (mixVerilog env) fun status w v => status = found ∧
        World.Same (insert (lit "beyond_after_flatten_circuit.v")
          (insert (lit "beyond_mix_circuit.v") known)) w v := by
  have status {w v : World Text Text Counters} (same : World.Same (known ∪ verilogFiles found) w v)
      (i : Fin m) : MixVerilog.faultStatus w.files i = MixVerilog.faultStatus v.files i := by
    have file (b : Fin 2) := same.files _ (.inl (faults (faultFile_mem i b)))
    exact congrArg₂ (fun zero one : Option Text => (zero.isSome, one.isSome)) (file 0) (file 1)
  have read : Agrees SameLog
      (fun w v => World.Same (known ∪ verilogFiles found) w v ∧ Flagged found w.files)
      (observe fun w (i : Fin m) => MixVerilog.faultStatus w.files i : Stage (Fin m → Bool × Bool))
      fun status w v => status = found ∧
        World.Same (known ∪ verilogFiles found) w v ∧ Flagged found w.files :=
    Agrees.observe _ (fun _ _ start => start.1.produced)
      (fun _ _ start => funext fun i => status start.1 i)
      fun _ _ start => ⟨funext fun i => start.2.status i, start⟩
  have mixed : Agrees SameLog
      (fun w v => World.Same (known ∪ verilogFiles found) w v ∧ Flagged found w.files)
      (observe fun w => MixVerilog.mixCircuit w.files env.ioNames n m : Stage Text)
      fun _ => World.Same known := by
    apply Agrees.observe _ (fun _ _ start => start.1.produced)
    · intro w v start
      apply mixCircuit_congr env.ioNames n fun i inside => status start.1 ⟨i, inside⟩
      · exact start.1.files _ (.inl original)
      · intro name listed
        rcases mem_appendedFiles (fun i => start.2.status i) listed with rfl | own
        · exact start.1.files _ (.inl circuit)
        · exact start.1.files _ (.inr own)
    · exact fun _ _ start => start.1.mono Set.subset_union_left
  apply Agrees.bind read
  intro status
  apply Agrees.fact
  intro right
  apply Agrees.bind mixed
  intro mixCircuit
  apply Agrees.bind (Determined.writeFile _ mixCircuit)
  intro _
  apply Agrees.bind (modifyVerilogFormat_local (m := m) (Set.mem_insert _ _)
    (notMem_faultFiles (by decide))).determined
  intro _
  apply Agrees.bind (Determined.writeFile _ Verilog.mixScript)
  intro _
  apply Agrees.bind (runTool_local (m := m) (by simp)
    ((answered.mono fun name listed => by simp [listed]).script (by simp [abcFiles])
      Verilog.mixScript) (notMem_faultFiles (by decide))).determined
  intro _
  apply Agrees.pure _ (fun _ _ same => same.produced)
  intro w v same
  refine ⟨right, same.mono (Set.insert_subset_insert ?_)⟩
  exact (Set.subset_insert _ _).trans (Set.subset_insert _ _)

end Mix

end LogicRegression.Main
