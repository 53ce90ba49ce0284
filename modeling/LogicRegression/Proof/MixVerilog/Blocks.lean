import LogicRegression.Construction.Iogen
import LogicRegression.Construction.MixVerilog

namespace LogicRegression.MixVerilog

open Text

section Names

variable (ioNames : List Text) (inputNum : ℕ)

/-- The four derived names of one output, in the order of the table. -/
def wireBlock (i : ℕ) : List Text :=
  [outputName ioNames inputNum i ++ lit "_main", outputName ioNames inputNum i ++ lit "_wrong1",
    outputName ioNames inputNum i ++ lit "_wrong0",
    outputName ioNames inputNum i ++ lit "_tks_new_wire"]

/-- The index `i * 4 + c` finds the name of number `c` of output `i`. -/
theorem wireName_getD {outputNum i c : ℕ} (inside : i < outputNum) (column : c < 4) :
    (wireName ioNames inputNum outputNum).getD (i * 4 + c) [] =
      (wireBlock ioNames inputNum i).getD c [] := by
  have size (count : ℕ) : (wireName ioNames inputNum count).length = count * 4 := by
    induction count with
    | zero => rfl
    | succ count ih =>
        rw [wireName, List.range_succ, List.flatMap_append, List.length_append]
        change (wireName ioNames inputNum count).length + 4 = _
        omega
  induction outputNum with
  | zero => omega
  | succ outputNum ih =>
      have split : wireName ioNames inputNum (outputNum + 1) =
          wireName ioNames inputNum outputNum ++ wireBlock ioNames inputNum outputNum := by
        rw [wireName, List.range_succ, List.flatMap_append, List.flatMap_singleton]
        rfl
      rw [split]
      rcases Nat.lt_succ_iff_lt_or_eq.mp inside with before | rfl
      · rw [List.getD_append _ _ _ _ (by rw [size]; omega)]
        exact ih before
      · rw [List.getD_append_right _ _ _ _ (by rw [size]; omega), size, Nat.add_sub_cancel_left]

end Names

section Block

variable (ioNames : List Text) (inputNum i : ℕ)

/-- The nets that belong to one output: the output itself and its derived names. -/
def ownNets : List Text := outputName ioNames inputNum i :: wireBlock ioNames inputNum i

/-- The suffixes keep the nets of one output apart. -/
theorem ownNets_nodup : (ownNets ioNames inputNum i).Nodup := by
  have apart {first second : Text} (different : first ≠ second) :
      outputName ioNames inputNum i ++ first ≠ outputName ioNames inputNum i ++ second :=
    fun same => different (List.append_cancel_left same)
  have plain {suffix : Text} (nonempty : suffix ≠ []) :
      outputName ioNames inputNum i ≠ outputName ioNames inputNum i ++ suffix :=
    fun same => nonempty (List.self_eq_append_right.mp same)
  simp only [ownNets, wireBlock, List.nodup_cons, List.mem_cons, List.not_mem_nil, or_false, not_or]
  exact ⟨⟨plain (by decide), plain (by decide), plain (by decide), plain (by decide)⟩,
    ⟨apart (by decide), apart (by decide), apart (by decide)⟩,
    ⟨apart (by decide), apart (by decide)⟩, apart (by decide), not_false, List.nodup_nil⟩

/-- The declared wires, with the derived names written out. -/
def blockWires (status : Bool × Bool) : List Text :=
  match status with
  | (false, false) => [outputName ioNames inputNum i ++ lit "_main"]
  | (true, false) =>
      [outputName ioNames inputNum i ++ lit "_wrong1", outputName ioNames inputNum i ++ lit "_main"]
  | (false, true) =>
      [outputName ioNames inputNum i ++ lit "_wrong0", outputName ioNames inputNum i ++ lit "_main"]
  | (true, true) =>
      [outputName ioNames inputNum i ++ lit "_tks_new_wire",
        outputName ioNames inputNum i ++ lit "_main", outputName ioNames inputNum i ++ lit "_wrong1",
        outputName ioNames inputNum i ++ lit "_wrong0"]

/-- The gates, with the derived names written out. -/
def blockGates (status : Bool × Bool) : List (Gate Text) :=
  let output := outputName ioNames inputNum i
  match status with
  | (false, false) => [.buf output (output ++ lit "_main")]
  | (true, false) => [.or output (output ++ lit "_main") (output ++ lit "_wrong1")]
  | (false, true) => [.and output (output ++ lit "_main") (output ++ lit "_wrong0")]
  | (true, true) =>
      [.or (output ++ lit "_tks_new_wire") (output ++ lit "_main") (output ++ lit "_wrong1"),
        .and output (output ++ lit "_tks_new_wire") (output ++ lit "_wrong0")]

variable {outputNum i}

theorem declaredWires_eq (inside : i < outputNum) (status : Bool × Bool) :
    declaredWires (wireName ioNames inputNum outputNum) i status =
      blockWires ioNames inputNum i status := by
  have name {c : ℕ} (column : c < 4) := wireName_getD ioNames inputNum inside column
  obtain ⟨first, second⟩ := status
  cases first <;> cases second <;>
    simp only [declaredWires, name (show 0 < 4 by decide), name (show 1 < 4 by decide),
      name (show 2 < 4 by decide), name (show 3 < 4 by decide)] <;> rfl

theorem outputGates_eq (inside : i < outputNum) (status : Bool × Bool) :
    outputGates (wireName ioNames inputNum outputNum) (outputName ioNames inputNum i) i status =
      blockGates ioNames inputNum i status := by
  have name {c : ℕ} (column : c < 4) := wireName_getD ioNames inputNum inside column
  obtain ⟨first, second⟩ := status
  cases first <;> cases second <;>
    simp only [outputGates, name (show 0 < 4 by decide), name (show 1 < 4 by decide),
      name (show 2 < 4 by decide), name (show 3 < 4 by decide)] <;> rfl

variable (i)

/-- What drives the nets of one output: its gates, the main circuit and its submodules. -/
def blockDrivers (status : Bool × Bool) : List Text :=
  (blockGates ioNames inputNum i status).map Gate.output ++
    (outputName ioNames inputNum i ++ lit "_main") ::
      (submodules ioNames inputNum i status).flatMap Instance.outputs

/-- Each case drives the output and the declared wires once. -/
theorem blockDrivers_perm (status : Bool × Bool) :
    (blockDrivers ioNames inputNum i status).Perm
      (outputName ioNames inputNum i :: blockWires ioNames inputNum i status) := by
  obtain ⟨first, second⟩ := status
  cases first with
  | false =>
      cases second with
      | false => exact List.Perm.refl _
      | true => exact List.Perm.cons _ (List.Perm.swap _ _ _)
  | true =>
      cases second with
      | false => exact List.Perm.cons _ (List.Perm.swap _ _ _)
      | true => exact List.Perm.swap _ _ _

theorem blockWires_nodup (status : Bool × Bool) :
    (outputName ioNames inputNum i :: blockWires ioNames inputNum i status).Nodup := by
  have distinct := ownNets_nodup ioNames inputNum i
  obtain ⟨first, second⟩ := status
  simp only [ownNets, wireBlock, List.nodup_cons, List.mem_cons, List.not_mem_nil, or_false,
    not_or] at distinct
  cases first <;> cases second <;>
    simp only [blockWires, List.nodup_cons, List.mem_cons, List.not_mem_nil, or_false, not_or] <;>
    grind

theorem blockWires_subset (status : Bool × Bool) :
    outputName ioNames inputNum i :: blockWires ioNames inputNum i status ⊆
      ownNets ioNames inputNum i := by
  obtain ⟨first, second⟩ := status
  cases first <;> cases second <;> simp [blockWires, ownNets, wireBlock]

/-- The gates of one output read each of its declared wires once. -/
theorem blockGates_inputs (status : Bool × Bool) :
    ((blockGates ioNames inputNum i status).flatMap Gate.inputs).Perm
      (blockWires ioNames inputNum i status) := by
  obtain ⟨first, second⟩ := status
  cases first with
  | false =>
      cases second with
      | false => exact List.Perm.refl _
      | true => exact List.Perm.swap _ _ _
  | true =>
      cases second with
      | false => exact List.Perm.swap _ _ _
      | true =>
          exact ((List.Perm.swap _ _ _).cons _).trans (List.Perm.swap _ _ _)

end Block

end LogicRegression.MixVerilog
