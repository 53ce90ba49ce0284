import LogicRegression.Proof.ClassifyOutput.Sampling
import LogicRegression.Proof.Main.Agreement
import LogicRegression.Proof.Main.Leftover

namespace LogicRegression.Main

open Text Program

variable {n m : ℕ} {known : Set Text}

section Run

variable (env : Environment n m)

/-- The two directories agree on the known files, and the fault flags are these. -/
abbrev InStep (known : Set Text) (found : Fin m → Bool × Bool) (w v : World Text Text Counters) :
    Prop := World.Same known w v ∧ Flagged found w.files

/-- A stage that leaves the fault files alone keeps the runs in step. -/
theorem local_agrees {A : Type} {stage : Stage A} {later : Set Text}
    (confined : Local m known stage later) (found : Fin m → Bool × Bool) :
    Agrees SameLog (InStep known found) stage fun _ => InStep later found :=
  confined.determined.ensures (keeps_flags confined.keeps fun j c => bitOf (found j) c)

/-- The sampling of constant outputs never ends without inputs. -/
theorem checkConstOutput_positive :
    Ensures (fun _ => True) (checkConstOutput env) fun _ _ => 0 < n := by
  have ended {A : Type} (stage : Stage A) : Ensures (fun _ => True) stage fun _ _ => True :=
    fun _ _ _ _ _ => trivial
  refine Ensures.bind (ended (tick env.time)) fun _ => Ensures.bind (ended (observe _)) fun count => ?_
  split
  · exact Ensures.stop _
  · next returned =>
      intro _ _ _ _ _
      exact ClassifyOutput.positive_of_returned returned

theorem checkConstOutput_agrees (answered : Answered env known) (found : Fin m → Bool × Bool) :
    Agrees SameLog (InStep known found) (checkConstOutput env) fun _ w v =>
      0 < n ∧ InStep known found w v :=
  ((local_agrees (checkConstOutput_local env answered) found).ensures
    (checkConstOutput_positive env)).weaken (fun _ _ start => ⟨start, trivial⟩)
      fun _ _ _ finish => ⟨finish.2, finish.1⟩

/-- The second loop stays in step, and its flags are those of its files. -/
theorem fixLoop_agrees (answered : Answered env known)
    (circuit : lit "beyond_before_fix_circuit.v" ∈ known) (start : ℤ) (gatecnt : ℕ)
    (notTruthTablePO : List (Fin m)) (realPIToPO : List (List (Fin n)))
    (timingInfo : TimingFunc.TimingInfo) :
    Agrees SameLog (InStep known fun _ : Fin m => (false, false))
      ((List.finRange m).foldlM (fixOutput env start gatecnt notTruthTablePO realPIToPO)
        ⟨timingInfo, fun _ => (false, false)⟩)
      fun state => InStep (known ∪ verilogFiles state.found) state.found := by
  have round (i : Fin m) (_ : i ∈ List.finRange m) (state : FixState m) :=
    fixOutput_agrees env answered circuit start gatecnt notTruthTablePO realPIToPO state i
  have loop := (Agrees.foldlM (fun _ _ _ same => same.produced) round
    ⟨timingInfo, fun _ => (false, false)⟩).ensures
      (fixLoop_flagged env start gatecnt notTruthTablePO realPIToPO timingInfo)
  have unflagged : verilogFiles (fun _ : Fin m => (false, false)) = ∅ := by
    ext name
    simp [verilogFiles, verilogOf, bitOf]
  simp only [unflagged, Set.union_empty] at loop
  exact loop

theorem tick_agrees {found : Fin m → Bool × Bool} :
    Agrees SameLog (InStep known found) (tick env.time) fun _ => InStep known found :=
  local_agrees (tick_local env.time) found

theorem modifyLines_determined (writeVerilogName text : Text) :
    Determined known (modifyLines writeVerilogName text) known := by
  rw [modifyLines]
  split
  · apply Determined.bind (Determined.writeFile writeVerilogName _)
    exact fun _ => Determined.stop _
  · apply Determined.bind (Determined.writeFile writeVerilogName _)
    intro _
    exact (Determined.pure _).weaken subset_rfl (Set.subset_insert _ _)

theorem modifyVerilogFormat_determined {readVerilogName : Text} (writeVerilogName : Text)
    (listed : readVerilogName ∈ known) :
    Determined known (modifyVerilogFormat readVerilogName writeVerilogName) known := by
  apply Determined.bind (Determined.readFile listed)
  exact fun file => modifyLines_determined writeVerilogName _

/-- Two runs that start without fault files of an output end in the same way, write the same files
with the same contents and set the flags for the faults that they have found, when each file that a
tool writes is the same before both runs or written at every call of the tool. -/
theorem main_independent (files others : Text → Option Text)
    (clean : ∀ (i : Fin m) (b : Fin 2), files (faultFile i b (lit ".blif")) = none)
    (othersClean : ∀ (i : Fin m) (b : Fin 2), others (faultFile i b (lit ".blif")) = none)
    (answered : Answered env { name | files name = others name }) :
    (main env (startIn files)).1 = (main env (startIn others)).1 ∧
      (main env (startIn files)).2.produced = (main env (startIn others)).2.produced ∧
      ∀ report, (main env (startIn files)).1 = .ok report → report.status = report.found := by
  let none : Fin m → Bool × Bool := fun _ => (false, false)
  let same : Set Text := { name | files name = others name }
  have kept : Answered env same := answered
  have faults : faultFiles m ⊆ same := by
    intro name ⟨i, b, equal⟩
    rw [equal]
    exact (clean i b).trans (othersClean i b).symm
  have start : InStep same none (startIn files) (startIn others) := by
    refine ⟨⟨fun name listed => listed, rfl, rfl⟩, fun i b => ?_⟩
    have missing : flag files i b = false := by rw [flag, clean i b]; rfl
    exact missing.trans (by simp [bitOf, none])
  have removed {later : Set Text} : Agrees SameLog (World.Same later)
      (update (World.remove isTemporary) : Stage Unit) fun _ => SameLog :=
    Agrees.update _ (fun _ _ same => same.produced) fun _ _ same => same.produced
  have whole : Agrees SameLog (InStep same none) (main env)
      fun report _ _ => report.status = report.found := by
    apply Agrees.bind (local_agrees (tick_local env.time) none)
    intro start
    apply Agrees.bind (local_agrees (buildDummyInfo_local env) none)
    intro _
    apply Agrees.bind (checkConstOutput_agrees env (kept.mono fun name listed => by simp [listed]) none)
    intro classifyPO
    apply Agrees.fact
    intro positive
    apply Agrees.bind (local_agrees (writeBlifHeader_local env) none)
    intro _
    apply Agrees.bind (local_agrees (tick_local env.time) none)
    intro _
    apply Agrees.bind (local_agrees (writeOutputs_local env
      (kept.mono fun name listed => by simp [listed]) (by simp) (by simp) (by simp) positive
      classifyPO _) none)
    intro realPIToPO
    apply Agrees.bind (local_agrees (abcOptimization_local env (by simp)
      ((kept.mono fun name listed => by simp [listed]).abc _ (by simp [abcFiles]))
      (notMem_faultFiles (by decide))) none)
    intro _
    apply Agrees.bind (local_agrees (tick_local env.time) none)
    intro _
    apply Agrees.bind (local_agrees (modifyVerilogFormat_local (by simp)
      (notMem_faultFiles (by decide))) none)
    intro gatecnt0
    apply Agrees.bind (local_agrees (tick_local env.time) none)
    intro _
    have known : lit "beyond_before_fix_circuit.v" ∈ insert (lit "beyond_before_fix_circuit.v")
      (insert (lit "beyond_original_circuit.v") (insert (lit "beyond_circuit.blif")
        (insert (lit "beyond_DummyInfo_ex.log") (insert (lit "beyond_DummyInfo.log")
          same)))) := Set.mem_insert _ _
    apply Agrees.bind (fixLoop_agrees env (kept.mono fun name listed => by simp [listed]) known
      start gatecnt0 _ realPIToPO _)
    intro fixed
    apply Agrees.bind (tick_agrees env)
    intro _
    apply Agrees.bind (mixVerilog_agrees env (kept.mono fun name listed => by simp [listed])
      (by simp) (by simp) fun name listed => by simp [faults listed])
    intro status
    apply Agrees.fact
    intro right
    apply Agrees.bind (tick_determined env)
    intro _
    apply Agrees.bind (modifyVerilogFormat_determined _ (by simp))
    intro _
    apply Agrees.bind (tick_determined env)
    intro _
    apply Agrees.bind (Determined.readFile (by simp))
    intro mixCircuit
    apply Agrees.bind removed
    intro _
    exact Agrees.pure _ (fun _ _ same => same) fun _ _ _ => right
  obtain ⟨values, produced, reported⟩ := whole _ _ start
  exact ⟨values, produced, reported⟩

/-- A mixed circuit of an earlier run does not matter. -/
theorem main_independent_sample :
    let others : Text → Option Text :=
      fun name => if name = lit "beyond_mix_circuit.v" then some (lit "endmodule\n") else none
    (main constantEnvironment (startIn fun _ => none)).1 =
        (main constantEnvironment (startIn others)).1 ∧
      (main constantEnvironment (startIn fun _ => none)).2.produced =
        (main constantEnvironment (startIn others)).2.produced ∧
      ∀ report, (main constantEnvironment (startIn fun _ => none)).1 = .ok report →
        report.status = report.found := by
  intro others
  refine main_independent constantEnvironment _ others (fun _ _ => rfl) (fun i b => ?_)
    ⟨fun _ _ => .inr fun _ => rfl, fun _ _ => .inr fun _ _ => rfl, .inr fun _ _ _ => rfl⟩
  have apart : faultFile i b (lit ".blif") ≠ lit "beyond_mix_circuit.v" := fun same =>
    notMem_faultFiles (m := 1) (by decide) (same ▸ faultFile_mem i b)
  exact if_neg apart

/-- The files that are mixed when the flags of the output are these. -/
def constantMixed (flags : Bool × Bool) (name : Text) : Option Text :=
  if name = lit "beyond_PO0fault0.blif" then if flags.1 then some [] else none
  else if name = lit "beyond_PO0fault1.blif" then if flags.2 then some [] else none
  else if name = lit "beyond_original_circuit.v" then some constantCircuit
  else if name = lit "beyond_before_fix_circuit.v" then
    some (Verilog.modifyVerilogFormat constantCircuit)
  else none

/-- The mixed circuit is that of the inferred flags. -/
theorem mixCircuit_constant {before : Fin 1 → Fin 2 → Bool} (unraised : before 0 1 = false)
    {files : Text → Option Text} (watched : Watched before constantKnown files) :
    MixVerilog.mixCircuit files constantNames.names 18 1 =
      MixVerilog.mixCircuit (constantMixed (before 0 0, false)) constantNames.names 18 1 := by
  have inferred : MixVerilog.faultStatus files 0 = (before 0 0, false) :=
    Prod.ext (watched.flags 0 0) ((watched.flags 0 1).trans unraised)
  have own : MixVerilog.faultStatus (constantMixed (before 0 0, false)) 0 = (before 0 0, false) := by
    cases before 0 0 <;> rfl
  have known : constantKnown = [(lit "beyond_before_fix_circuit.v",
      some (Verilog.modifyVerilogFormat constantCircuit)), (lit "beyond_original_circuit.v",
      some constantCircuit), (lit "beyond_PO0fault0.v", none)] := rfl
  apply mixCircuit_congr
  · intro i inside
    obtain rfl : i = 0 := by omega
    exact inferred.trans own.symm
  · exact watched.contents (lit "beyond_original_circuit.v", some constantCircuit) (by simp [known])
  · intro name listed
    rw [MixVerilog.appendedFiles, List.range_one, List.flatMap_singleton, inferred,
      List.mem_cons] at listed
    rcases listed with rfl | fault
    · exact watched.contents (lit "beyond_before_fix_circuit.v",
        some (Verilog.modifyVerilogFormat constantCircuit)) (by simp [known])
    · obtain rfl : name = lit "beyond_PO0fault0.v" := by
        revert fault
        cases before 0 0
        · intro none
          cases none
        · exact List.mem_singleton.mp
      exact watched.contents (lit "beyond_PO0fault0.v", none) (by simp [known])

/-- A fault file of an earlier run is taken for a fault of this run. -/
theorem main_dependent :
    let leftover : Text → Option Text := fun name =>
      if name = lit "beyond_PO0fault0.blif" then some (lit ".model submodule0fault0\n.end") else none
    ∃ report other,
      (main constantEnvironment (startIn fun _ => none)).1 = .ok report ∧
      (main constantEnvironment (startIn leftover)).1 = .ok other ∧
      other.status 0 ≠ other.found 0 ∧ report.mixCircuit ≠ other.mixCircuit := by
  intro leftover
  have noFlags (j : Fin 1) (c : Fin 2) : flag (fun _ => none) j c = false := rfl
  have leftoverFlags : ∀ (j : Fin 1) (c : Fin 2), flag leftover j c = decide (c = 0) := by decide
  have safe : ∀ raised, Verilog.NoShort (MixVerilog.mixCircuit (constantMixed (raised, false))
      constantNames.names 18 1) := by
    have lines : ∀ raised, (Text.lines (MixVerilog.mixCircuit (constantMixed (raised, false))
      constantNames.names 18 1)).any Verilog.isShort = false := by decide +kernel
    exact lines
  obtain ⟨report, v, returned, found, status, mixed⟩ := constantRun_returns noFlags rfl
    (fun _ watched => mixCircuit_constant rfl watched) (safe _)
  obtain ⟨other, u, otherReturned, otherFound, otherStatus, otherMixed⟩ := constantRun_returns
    leftoverFlags rfl (fun _ watched => mixCircuit_constant rfl watched) (safe _)
  refine ⟨report, other, congrArg Prod.fst returned, congrArg Prod.fst otherReturned, ?_, ?_⟩
  · rw [otherFound, otherStatus]
    decide
  · rw [mixed, otherMixed]
    intro same
    have letters := congrArg (fun text => text.getD 13 'x') (Option.some.inj same)
    revert letters
    decide +kernel

end Run

end LogicRegression.Main
