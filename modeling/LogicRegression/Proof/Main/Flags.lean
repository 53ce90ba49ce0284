import LogicRegression.Proof.Main.Stages

namespace LogicRegression.Main

open Text Program

variable {n m : ℕ}

/-- The number of the output, the number of the list and the extension can be read off the name. -/
theorem faultFile_inj {i j b c : ℕ} {first second : Text}
    (same : faultFile i b ('.' :: first) = faultFile j c ('.' :: second)) :
    i = j ∧ b = c ∧ first = second := by
  simp only [faultFile, MixVerilog.faultName, List.append_assoc, List.append_cancel_left_eq] at same
  obtain ⟨rfl, rest⟩ := decimal_append_inj (by decide) (by decide) same
  have tails : lit "fault" ++ (decimal b ++ '.' :: first) = lit "fault" ++ (decimal c ++ '.' :: second) :=
    rest
  have numbers : decimal b ++ '.' :: first = decimal c ++ '.' :: second :=
    List.append_cancel_left tails
  obtain ⟨rfl, extensions⟩ := decimal_append_inj (by decide) (by decide) numbers
  exact ⟨rfl, rfl, (List.cons.inj extensions).2⟩

/-- A Verilog file is no fault file. -/
theorem verilog_notMem_faultFiles (i b : ℕ) : faultFile i b (lit ".v") ∉ faultFiles m := by
  intro ⟨j, c, same⟩
  have names : faultFile i b ('.' :: lit "v") = faultFile j c ('.' :: lit "blif") := same
  exact absurd (faultFile_inj names).2.2 (by decide)

/-- A fault flag is the existence of a fault file. -/
def flag (files : Text → Option Text) (j : Fin m) (c : Fin 2) : Bool :=
  (files (faultFile j c (lit ".blif"))).isSome

/-- The flag of one list among the two flags of an output. -/
def bitOf (flags : Bool × Bool) (c : Fin 2) : Bool := if c = 0 then flags.1 else flags.2

/-- The fault flags of all outputs are these. -/
def Flagged (found : Fin m → Bool × Bool) (files : Text → Option Text) : Prop :=
  ∀ j c, flag files j c = bitOf (found j) c

theorem Flagged.status {found : Fin m → Bool × Bool} {files : Text → Option Text}
    (flagged : Flagged found files) (j : Fin m) : MixVerilog.faultStatus files j = found j :=
  Prod.ext (flagged j 0) (flagged j 1)

/-- A stage that leaves the fault files alone leaves all flags as they are. -/
theorem keeps_flags {A : Type} {stage : Stage A} (keeps : Keeps (faultFiles m) stage)
    (before : Fin m → Fin 2 → Bool) :
    Ensures (fun w => ∀ j c, flag w.files j c = before j c) stage fun _ w =>
      ∀ j c, flag w.files j c = before j c := by
  intro w start a v returned j c
  have single := keeps.ensures (Q := fun content => content.isSome = before j c)
    (faultFile_mem j c)
  exact single w (start j c) a v returned

section Repair

variable (env : Environment n m) (i : Fin m)

/-- A list that is not empty raises its own flag and no other. -/
theorem writeFault_flags (b : Fin 2) (patterns : List (Fin n → Bool)) (blif : Text)
    (before : Fin m → Fin 2 → Bool) :
    Ensures (fun w => ∀ j c, flag w.files j c = before j c)
      (writeFault env i b patterns blif) fun _ w =>
        ∀ j c, flag w.files j c = (before j c || (decide (j = i ∧ c = b) && !patterns.isEmpty)) := by
  rw [writeFault]
  cases patterns with
  | nil => exact Ensures.pure _ fun w start j c => by simp [start j c]
  | cons x patterns =>
      rw [if_pos (by simp)]
      have written : Ensures (fun w => ∀ j c, flag w.files j c = before j c)
          (writeFile (faultFile i b (lit ".blif")) blif : Stage Unit) fun _ w =>
            ∀ j c, flag w.files j c = (before j c || decide (j = i ∧ c = b)) := by
        apply Ensures.update
        intro w start j c
        by_cases own : j = i ∧ c = b
        · rw [own.1, own.2, flag, World.write_files_self]
          simp
        · have apart : faultFile j c (lit ".blif") ≠ faultFile i b (lit ".blif") := by
            intro same
            have names : faultFile j c ('.' :: lit "blif") = faultFile i b ('.' :: lit "blif") := same
            obtain ⟨outputs, lists, -⟩ := faultFile_inj names
            exact own ⟨Fin.ext outputs, Fin.ext lists⟩
          rw [flag, World.write_files_of_ne apart, decide_eq_false own, Bool.or_false]
          exact start j c
      have kept := keeps_flags (abcOptimization_local env
        (Set.mem_univ (faultFile i b (lit ".blif"))) (.inl (Set.mem_univ _))
        (verilog_notMem_faultFiles (m := m) i b)).keeps
        fun j c => before j c || decide (j = i ∧ c = b)
      have whole := Ensures.bind written fun _ => kept
      exact whole.weaken (fun _ start => start) fun _ w finish j c => by simp [finish j c]

/-- The flags that `FixNetwork` returns are those of the files that it leaves behind. -/
theorem fixNetwork_flagged {found : Fin m → Bool × Bool} (fresh : found i = (false, false))
    (patternUpLimit : ℤ) (realPI : List (Fin n)) :
    Ensures (fun w => Flagged found w.files) (fixNetwork env i patternUpLimit realPI)
      fun flags w => Flagged (Function.update found i flags) w.files := by
  have tested := keeps_flags (findFaults_local env (Answered.univ env) (Set.mem_univ _) i
    patternUpLimit realPI).keeps fun j c => bitOf (found j) c
  have both (faults : FixNetwork.Faults n) : Ensures (fun w => Flagged found w.files)
      (do writeFault env i 0 faults.fault0Pattern
            (FixNetwork.fault0Blif env.ioNames i realPI faults.fault0Pattern)
          writeFault env i 1 faults.fault1Pattern
            (FixNetwork.fault1Blif env.ioNames i realPI faults.fault1Pattern)
          return (!faults.fault0Pattern.isEmpty, !faults.fault1Pattern.isEmpty))
      fun flags w => Flagged (Function.update found i flags) w.files := by
    refine Ensures.bind (writeFault_flags env i 0 faults.fault0Pattern _
      fun j c => bitOf (found j) c) fun _ => Ensures.bind (writeFault_flags env i 1
        faults.fault1Pattern _ _) fun _ => Ensures.pure _ ?_
    intro w raised j c
    rw [raised j c]
    by_cases own : j = i
    · subst own
      fin_cases c <;> simp [bitOf, fresh]
    · rw [Function.update_of_ne own]
      simp [own]
  exact Ensures.bind tested both

end Repair

section Loop

variable (env : Environment n m) (start : ℤ) (gatecnt : ℕ) (notTruthTablePO : List (Fin m))
  (realPIToPO : List (List (Fin n)))

/-- The flags are right, and the outputs that are still to come have none. -/
structure Tested (done : List (Fin m)) (state : FixState m) (w : World Text Text Counters) :
    Prop where
  flagged : Flagged state.found w.files
  fresh : ∀ j ∉ done, state.found j = (false, false)

theorem tick_flagged {found : Fin m → Bool × Bool} :
    Ensures (fun w => Flagged found w.files) (tick env.time) fun _ w => Flagged found w.files :=
  have confined : Local m Set.univ (tick env.time) Set.univ := tick_local env.time
  keeps_flags confined.keeps fun j c => bitOf (found j) c

/-- One round of the second loop records the flags of its output. -/
theorem fixOutput_tested {done : List (Fin m)} {i : Fin m} (later : i ∉ done) (state : FixState m) :
    Ensures (Tested done state) (fixOutput env start gatecnt notTruthTablePO realPIToPO state i)
      (Tested (done ++ [i])) := by
  rw [fixOutput]
  split
  · intro w before
    have rounds (patternUpLimit : ℤ) (timingInfo : TimingFunc.TimingInfo) :
        Ensures (fun w => Flagged state.found w.files)
          (do let flags ← fixNetwork env i patternUpLimit (realPIToPO.getD i [])
              let _ ← tick env.time
              return (⟨timingInfo, Function.update state.found i flags⟩ : FixState m))
          (Tested (done ++ [i])) := by
      refine Ensures.bind (fixNetwork_flagged env i (before.fresh i later) patternUpLimit _)
        fun flags => Ensures.bind (tick_flagged env) fun _ => Ensures.pure _ ?_
      intro v flagged
      refine ⟨flagged, fun j outside => ?_⟩
      rw [List.mem_append, List.mem_singleton, not_or] at outside
      exact (Function.update_of_ne outside.2 _ _).trans (before.fresh j outside.1)
    exact Ensures.bind (tick_flagged env) (fun now => Ensures.bind (tick_flagged env)
      fun _ => rounds _ _) w before.flagged
  · intro w before state' v returned
    cases returned
    exact ⟨before.flagged, fun j outside => before.fresh j fun inside =>
      outside (List.mem_append_left _ inside)⟩

/-- The loop records exactly the flags that its files show. -/
theorem fixLoop_flagged (timingInfo : TimingFunc.TimingInfo) :
    Ensures (fun w => Flagged (fun _ : Fin m => (false, false)) w.files)
      ((List.finRange m).foldlM (fixOutput env start gatecnt notTruthTablePO realPIToPO)
        ⟨timingInfo, fun _ => (false, false)⟩) fun state w => Flagged state.found w.files := by
  have step (done : List (Fin m)) (i : Fin m) (before : done ++ [i] <+: List.finRange m)
      (state : FixState m) : Ensures (Tested done state)
        (fixOutput env start gatecnt notTruthTablePO realPIToPO state i) (Tested (done ++ [i])) := by
    have distinct := (List.nodup_finRange m).sublist before.sublist
    have later : i ∉ done := fun inside =>
      (List.nodup_append.mp distinct).2.2 i inside i (by simp) rfl
    exact fixOutput_tested env start gatecnt notTruthTablePO realPIToPO later state
  exact (Ensures.foldlM step _).weaken (fun _ flagged => ⟨flagged, fun _ _ => rfl⟩)
    fun _ _ tested => tested.flagged

end Loop

end LogicRegression.Main
