import LogicRegression.Library.Fuel
import LogicRegression.Proof.CreatePattern.Rounds
import LogicRegression.Proof.Main.Shares

namespace LogicRegression.Main

open Text Program

variable {n m : ℕ}

/-- The same environment with more or less room for the loops. -/
def Environment.withFuel (env : Environment n m) (fuel : ℕ) : Environment n m :=
  { env with fuel := fuel }

section Fuel

variable (env : Environment n m) (fuel : ℕ)

@[simp] theorem withFuel_fuel : (env.withFuel fuel).fuel = fuel := rfl

@[simp] theorem withFuel_circuitName : (env.withFuel fuel).circuitName = env.circuitName := rfl

@[simp] theorem withFuel_ioNames : (env.withFuel fuel).ioNames = env.ioNames := rfl

@[simp] theorem withFuel_decideUpLimit : (env.withFuel fuel).decideUpLimit = env.decideUpLimit := rfl

@[simp] theorem withFuel_iogen : (env.withFuel fuel).iogen = env.iogen := rfl

@[simp] theorem withFuel_rand : (env.withFuel fuel).rand = env.rand := rfl

@[simp] theorem withFuel_time : (env.withFuel fuel).time = env.time := rfl

@[simp] theorem withFuel_rounding : (env.withFuel fuel).rounding = env.rounding := rfl

@[simp] theorem withFuel_uninit : (env.withFuel fuel).uninit = env.uninit := rfl

@[simp] theorem withFuel_undefined : (env.withFuel fuel).undefined = env.undefined := rfl

@[simp] theorem buildDummyInfo_withFuel : buildDummyInfo (env.withFuel fuel) = buildDummyInfo env := rfl

@[simp] theorem abcOptimization_withFuel :
    abcOptimization (env.withFuel fuel) = abcOptimization env := rfl

@[simp] theorem writeBlifHeader_withFuel :
    writeBlifHeader (env.withFuel fuel) = writeBlifHeader env := rfl

@[simp] theorem writeOutputs_withFuel : writeOutputs (env.withFuel fuel) = writeOutputs env := rfl

@[simp] theorem runNcverilog_withFuel : runNcverilog (env.withFuel fuel) = runNcverilog env := rfl

@[simp] theorem writeFault_withFuel : writeFault (env.withFuel fuel) = writeFault env := rfl

@[simp] theorem mixVerilog_withFuel : mixVerilog (env.withFuel fuel) = mixVerilog env := rfl

end Fuel

section Phases

/-- What the second loop of `main` gets from the stages before it. -/
structure Prepared (n m : ℕ) where
  start : ℤ
  gatecnt0 : ℕ
  notTruthTablePO : List (Fin m)
  realPIToPO : List (List (Fin n))

/-- The stages before the second loop. -/
def prepare (env : Environment n m) : Stage (Prepared n m) := do
  let start ← tick env.time
  buildDummyInfo env
  let classifyPO ← checkConstOutput env
  writeBlifHeader env
  let (upLimit, listed) := env.decideUpLimit classifyPO
  let _ ← tick env.time
  let notTruthTablePO := listed.insertionSort (· ≤ ·)
  let realPIToPO ← writeOutputs env classifyPO upLimit
  abcOptimization env (lit "beyond_circuit.blif") (lit "beyond_original_circuit.v")
  let _ ← tick env.time
  let gatecnt0 ← modifyVerilogFormat (lit "beyond_original_circuit.v")
    (lit "beyond_before_fix_circuit.v")
  let _ ← tick env.time
  return ⟨start, gatecnt0, notTruthTablePO, realPIToPO⟩

/-- One round of the second loop. -/
def Prepared.round (prepared : Prepared n m) (env : Environment n m) :
    FixState m → Fin m → Stage (FixState m) :=
  fixOutput env prepared.start prepared.gatecnt0 prepared.notTruthTablePO prepared.realPIToPO

/-- The state in which the second loop begins. -/
def Prepared.begin (prepared : Prepared n m) (env : Environment n m) : FixState m :=
  beforeFix env prepared.notTruthTablePO prepared.realPIToPO

/-- The steps after the circuit is written. -/
def cleanUp (env : Environment n m) (found status : Fin m → Bool × Bool) : Stage (Report m) := do
  let _ ← tick env.time
  let mixCircuit ← readFile (lit "beyond_mix_circuit.v")
  update (World.remove isTemporary)
  return ⟨found, status, mixCircuit⟩

/-- The stages after the second loop. -/
def finish (env : Environment n m) (fixed : FixState m) : Stage (Report m) := do
  let _ ← tick env.time
  let status ← mixVerilog env
  let _ ← tick env.time
  let _ ← modifyVerilogFormat (lit "beyond_after_flatten_circuit.v") env.circuitName
  cleanUp env fixed.found status

theorem main_phases (env : Environment n m) : main env = prepare env >>= fun prepared =>
    (List.finRange m).foldlM (prepared.round env) (prepared.begin env) >>= finish env := by
  simp only [main, prepare, bind_bind]
  rfl

end Phases

section Calls

/-- The arguments of a call of `CreatePattern` and the number of random numbers that are used. -/
structure Call (n m : ℕ) where
  i : Fin m
  patternUpLimit : ℤ
  realPI : List (Fin n)
  count : ℕ

namespace Call

def createPattern (call : Call n m) (env : Environment n m) (fuel : ℕ) :
    Option (FixNetwork.Run n × ℕ) :=
  FixNetwork.createPattern fuel call.realPI.length 0 (call.realPI.length / 2) call.patternUpLimit
    call.realPI (env.uninit call.i) env.rand call.count

/-- The patterns that a call makes. -/
def Makes (call : Call n m) (env : Environment n m) (tested : List (Fin n → Bool)) : Prop :=
  ∃ fuel run later, call.createPattern env fuel = some (run, later) ∧
    tested = run.final.iogenInputPatterns

/-- The random loops of a call never come to the limit of the second one. -/
def Unending (call : Call n m) (env : Environment n m) : Prop :=
  ∀ round, FixNetwork.RoundOfCall call.realPI call.patternUpLimit (env.uninit call.i) env.rand
    call.count round → round.extreme = false → round.i < call.patternUpLimit

/-- A call that never returns stays in one of its random loops. -/
theorem unending_of_never {call : Call n m} {env : Environment n m}
    (never : ∀ fuel, call.createPattern env fuel = none) : call.Unending env := by
  intro round reached plain
  by_contra full
  obtain ⟨fuel, result, returned⟩ :=
    FixNetwork.createPattern_ends_iff.mpr ⟨round, reached, plain, not_lt.mp full⟩
  exact absurd ((never fuel).symm.trans returned) (Option.some_ne_none result).symm

end Call

/-- The call in the round of a listed output. -/
def Prepared.call (prepared : Prepared n m) (env : Environment n m) (state : FixState m)
    (w : World Text Text Counters) (i : Fin m) : Call n m :=
  let timing := TimingFunc.timingFunction env.rounding (env.time w.inner.readings - prepared.start)
    prepared.gatecnt0 (entryInfo prepared.realPIToPO state i) (env.undefined i)
  ⟨i, Binary.toInt timing.1, prepared.realPIToPO.getD i [], w.inner.draws⟩

/-- With enough room a run in this directory comes to the round of an output. -/
def Comes (env : Environment n m) (files : Text → Option Text) (prepared : Prepared n m)
    (state : FixState m) (w : World Text Text Counters) (i : Fin m) : Prop :=
  ∃ v done later, Reaches (fun fuel => prepare (env.withFuel fuel)) (startIn files) prepared v ∧
    done ++ i :: later = List.finRange m ∧
    Reaches (fun fuel => done.foldlM (prepared.round (env.withFuel fuel)) (prepared.begin env)) v state w

/-- With enough room a run in this directory makes such a call. -/
def Called (env : Environment n m) (files : Text → Option Text) (call : Call n m) : Prop :=
  ∃ prepared state w i, Comes env files prepared state w i ∧ i ∈ prepared.notTruthTablePO ∧
    call = prepared.call env state w i

/-- What holds of the stages before the second loop, of each of its rounds and of the stages after it
holds of the run. -/
theorem main_of_phases {env : Environment n m} {files : Text → Option Text}
    {I : Prepared n m → List (Fin m) → World Text Text Counters → Prop}
    {after : Report m → World Text Text Counters → Prop}
    {stopped : Halt → World Text Text Counters → Prop}
    (first : Settles (· = startIn files) (fun fuel => prepare (env.withFuel fuel))
      (fun prepared w => I prepared [] w) stopped)
    (round : ∀ prepared done i later state w, done ++ i :: later = List.finRange m →
      I prepared done w → Comes env files prepared state w i →
        Settles (· = w) (fun fuel => prepared.round (env.withFuel fuel) state i)
          (fun _ v => I prepared (done ++ [i]) v) stopped)
    (last : ∀ prepared state, Settles (I prepared (List.finRange m))
      (fun fuel => finish (env.withFuel fuel) state) after stopped) :
    Settles (· = startIn files) (fun fuel => main (env.withFuel fuel)) after stopped := by
  simp only [main_phases]
  apply Settles.bind_reached first
  intro prepared v begun reached
  have rounds := Settles.foldlM_reached (I := fun done _ w => I prepared done w)
    (f := fun fuel => prepared.round (env.withFuel fuel)) (fun done i later split state w holds arrived =>
      round prepared done i later state w split holds ⟨v, done, later, reached, split, arrived⟩) begun
  exact Settles.bind rounds (last prepared)

end Calls

end LogicRegression.Main
