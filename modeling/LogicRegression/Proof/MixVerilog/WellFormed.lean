import LogicRegression.Proof.Iogen.Reference
import LogicRegression.Proof.MixVerilog.Blocks
import LogicRegression.Proof.MixVerilog.Instances

namespace LogicRegression.MixVerilog

open Text

section Top

variable {n m : ℕ} (io : IoNames n m) (status : ℕ → Bool × Bool)

/-- The outputs of the module in the order of their numbers. -/
theorem outputs_eq : (io.names.drop n).take m = (List.range m).map (outputName io.names n) := by
  apply List.ext_getElem
  · simp [io.size]
  · intro i left right
    have inside : i < m := by simpa using right
    have place : n + i < io.names.length := by rw [io.size]; omega
    simp [outputName, place]

theorem inputs_subset {net : Text} (listed : net ∈ io.names.take n) :
    net ∈ io.names.take (n + m) := by
  rw [← io.size, List.take_length]
  exact List.mem_of_mem_take listed

theorem output_mem {i : ℕ} (inside : i < m) : outputName io.names n i ∈ io.names := by
  have place : n + i < io.names.length := by rw [io.size]; omega
  rw [outputName, ← List.getElem_eq_getD (h := place)]
  exact List.getElem_mem place

/-- The drivers are the gate outputs, the outputs of the main circuit and those of the submodules. -/
theorem drivers_eq :
    (topModule io.names n m status).drivers =
      ((List.range m).flatMap fun j => (blockGates io.names n j (status j)).map Gate.output) ++
        (((List.range m).flatMap fun j => [outputName io.names n j ++ lit "_main"]) ++
          (List.range m).flatMap fun j =>
            (submodules io.names n j (status j)).flatMap Instance.outputs) := by
  rw [Netlist.drivers, topModule, List.map_flatMap, List.flatMap_cons, List.flatMap_assoc]
  congr 1
  · apply List.flatMap_congr
    intro j listed
    rw [outputGates_eq io.names n (List.mem_range.mp listed)]
  · congr 1
    change ((io.names.drop n).take m).map (· ++ lit "_main") = _
    rw [outputs_eq, List.map_map, List.map_eq_flatMap]
    rfl

/-- Each driven net is an output or a wire of its output. -/
theorem drivers_subset {net : Text} (listed : net ∈ (topModule io.names n m status).drivers) :
    ∃ i < m, net ∈ outputName io.names n i :: blockWires io.names n i (status i) := by
  have place : ∃ i < m, net ∈ blockDrivers io.names n i (status i) := by
    rw [drivers_eq, List.mem_append, List.mem_append, List.mem_flatMap, List.mem_flatMap,
      List.mem_flatMap] at listed
    rcases listed with ⟨i, inside, gate⟩ | ⟨i, inside, main⟩ | ⟨i, inside, sub⟩
    · exact ⟨i, List.mem_range.mp inside, List.mem_append_left _ gate⟩
    · exact ⟨i, List.mem_range.mp inside, List.mem_append_right _
        (List.mem_singleton.mp main ▸ List.mem_cons_self)⟩
    · exact ⟨i, List.mem_range.mp inside, List.mem_append_right _ (List.mem_cons_of_mem _ sub)⟩
  obtain ⟨i, inside, found⟩ := place
  exact ⟨i, inside, (blockDrivers_perm io.names n i (status i)).mem_iff.mp found⟩

variable {io} (distinct : (io.names ++ wireName io.names n m).Nodup)
include distinct

/-- Different outputs share no net. -/
theorem ownNets_disjoint {i j : ℕ} (inside : i < m) (otherInside : j < m) (apart : j ≠ i)
    {net : Text} (listed : net ∈ ownNets io.names n i) : net ∉ ownNets io.names n j := by
  have noWire {k l : ℕ} (within : k < m) (otherWithin : l < m) :
      outputName io.names n k ∉ wireBlock io.names n l := by
    intro found
    have wire : outputName io.names n k ∈ wireName io.names n m :=
      List.mem_flatMap.mpr ⟨l, List.mem_range.mpr otherWithin, found⟩
    exact (List.nodup_append.mp distinct).2.2 _ (output_mem io within) _ wire rfl
  intro other
  rcases List.mem_cons.mp listed with rfl | wire
  · rcases List.mem_cons.mp other with same | otherWire
    · have place : n + i < io.names.length := by rw [io.size]; omega
      have otherPlace : n + j < io.names.length := by rw [io.size]; omega
      rw [outputName, outputName, ← List.getElem_eq_getD (h := place),
        ← List.getElem_eq_getD (h := otherPlace), io.distinct.getElem_inj_iff] at same
      omega
    · exact noWire inside otherInside otherWire
  · rcases List.mem_cons.mp other with rfl | otherWire
    · exact noWire otherInside inside wire
    · have wires := (List.nodup_append.mp distinct).2.1
      change ((List.range m).flatMap (wireBlock io.names n)).Nodup at wires
      rw [List.nodup_flatMap] at wires
      have symm : Std.Symm (Function.onFun List.Disjoint (wireBlock io.names n)) :=
        ⟨fun _ _ disjoint => disjoint.symm⟩
      have disjoint := wires.2.forall (List.mem_range.mpr inside) (List.mem_range.mpr otherInside)
        apart.symm
      exact disjoint wire otherWire

/-- A net of one output is counted in the block of that output only. -/
theorem count_blocks {block : ℕ → List Text} (own : ∀ j < m, block j ⊆ ownNets io.names n j) {i : ℕ}
    (inside : i < m) {net : Text} (listed : net ∈ ownNets io.names n i) :
    ((List.range m).flatMap block).count net = (block i).count net := by
  apply Netlist.count_flatMap_of_unique List.nodup_range (List.mem_range.mpr inside)
  intro j otherListed apart found
  have otherInside := List.mem_range.mp otherListed
  exact ownNets_disjoint distinct inside otherInside apart listed (own j otherInside found)

/-- The drivers of a net of one output are those in the block of the output. -/
theorem drivers_count {i : ℕ} (inside : i < m) {net : Text} (listed : net ∈ ownNets io.names n i) :
    (topModule io.names n m status).drivers.count net =
      (blockDrivers io.names n i (status i)).count net := by
  have whole (j : ℕ) : blockDrivers io.names n j (status j) ⊆ ownNets io.names n j :=
    List.Subset.trans (blockDrivers_perm io.names n j (status j)).subset
      (blockWires_subset io.names n j (status j))
  have gates := count_blocks distinct (fun j _ _ found => whole j (List.mem_append_left _ found))
    inside listed
  let mainNet : ℕ → List Text := fun j => [outputName io.names n j ++ lit "_main"]
  have mainOwn : ∀ j < m, mainNet j ⊆ ownNets io.names n j := by
    intro j _ net found
    rw [List.mem_singleton.mp found]
    exact whole j (List.mem_append_right _ List.mem_cons_self)
  have mains := count_blocks distinct mainOwn inside listed
  have subs := count_blocks distinct (fun j _ _ found => whole j (List.mem_append_right _
    (List.mem_cons_of_mem _ found))) inside listed
  have block : blockDrivers io.names n i (status i) =
      (blockGates io.names n i (status i)).map Gate.output ++ (mainNet i ++
        (submodules io.names n i (status i)).flatMap Instance.outputs) := rfl
  rw [drivers_eq, block, List.count_append, List.count_append, gates, mains, subs, List.count_append,
    List.count_append]

omit distinct in
/-- The declared wires, output by output. -/
theorem mem_wires {net : Text} :
    net ∈ (topModule io.names n m status).wires ↔
      ∃ i < m, net ∈ blockWires io.names n i (status i) := by
  change net ∈ (List.range m).flatMap _ ↔ _
  rw [List.mem_flatMap]
  constructor
  · intro ⟨i, listed, found⟩
    have inside := List.mem_range.mp listed
    rw [declaredWires_eq io.names n inside] at found
    exact ⟨i, inside, found⟩
  · intro ⟨i, inside, found⟩
    rw [← declaredWires_eq io.names n inside] at found
    exact ⟨i, List.mem_range.mpr inside, found⟩

omit distinct in
/-- The gates read exactly the wires. -/
theorem mem_gateInputs {net : Text} :
    net ∈ (topModule io.names n m status).gates.flatMap Gate.inputs ↔
      net ∈ (topModule io.names n m status).wires := by
  rw [mem_wires]
  change net ∈ ((List.range m).flatMap _).flatMap Gate.inputs ↔ _
  rw [List.flatMap_assoc, List.mem_flatMap]
  constructor
  · intro ⟨i, listed, found⟩
    have inside := List.mem_range.mp listed
    rw [outputGates_eq io.names n inside] at found
    exact ⟨i, inside, (blockGates_inputs io.names n i (status i)).mem_iff.mp found⟩
  · intro ⟨i, inside, found⟩
    use i, List.mem_range.mpr inside
    rw [outputGates_eq io.names n inside]
    exact (blockGates_inputs io.names n i (status i)).mem_iff.mpr found

omit distinct in
/-- The instances read the inputs of the module. -/
theorem instanceInputs_subset {net : Text}
    (listed : net ∈ (topModule io.names n m status).instances.flatMap Instance.inputs) :
    net ∈ io.names.take n := by
  obtain ⟨cell, inside, found⟩ := List.mem_flatMap.mp listed
  have pins : cell.inputs = io.names.take n := by
    rcases List.mem_cons.mp inside with rfl | sub
    · rfl
    · obtain ⟨i, -, block⟩ := List.mem_flatMap.mp sub
      rcases List.mem_append.mp block with first | second
      · split at first
        · rw [List.mem_singleton.mp first]
        · exact absurd first List.not_mem_nil
      · split at second
        · rw [List.mem_singleton.mp second]
        · exact absurd second List.not_mem_nil
  exact pins ▸ found

/-- The module is well formed for every vector of fault flags. -/
theorem topModule_wellFormed : (topModule io.names n m status).WellFormed where
  driven := by
    intro net listed
    have place : ∃ i < m, net ∈ outputName io.names n i :: blockWires io.names n i (status i) := by
      rcases List.mem_append.mp listed with output | wire
      · change net ∈ (io.names.drop n).take m at output
        rw [outputs_eq] at output
        obtain ⟨i, inside, rfl⟩ := List.mem_map.mp output
        exact ⟨i, List.mem_range.mp inside, List.mem_cons_self⟩
      · obtain ⟨i, inside, found⟩ := (mem_wires status).mp wire
        exact ⟨i, inside, List.mem_cons_of_mem _ found⟩
    obtain ⟨i, inside, found⟩ := place
    rw [drivers_count status distinct inside (blockWires_subset io.names n i (status i) found),
      (blockDrivers_perm io.names n i (status i)).count_eq]
    exact List.count_eq_one_of_mem (blockWires_nodup io.names n i (status i)) found
  declared := by
    intro net listed
    rcases List.mem_append.mp listed with driver | reader
    · obtain ⟨i, inside, found⟩ := drivers_subset io status driver
      rcases List.mem_cons.mp found with rfl | wire
      · apply Or.inl
        change _ ∈ io.names.take (n + m)
        rw [← io.size, List.take_length]
        exact output_mem io inside
      · exact .inr ((mem_wires status).mpr ⟨i, inside, wire⟩)
    · rcases List.mem_append.mp reader with gate | cell
      · exact .inr ((mem_gateInputs status).mp gate)
      · exact .inl (inputs_subset io (instanceInputs_subset status cell))
  consumed := by
    intro wire listed
    exact List.mem_append_left _ ((mem_gateInputs status).mpr listed)

end Top

/-- Two inputs and three outputs. -/
def mixedNames : IoNames 2 3 where
  names := [lit "a", lit "b", lit "x", lit "y", lit "z"]
  size := rfl
  words := by
    intro name listed
    fin_cases listed <;> exact ⟨by decide, by decide⟩
  distinct := by decide

/-- The first output has faults of one kind, the second one of both kinds and the third one none. -/
def faultyFiles (name : Text) : Option Text :=
  if name ∈ [lit "beyond_PO0fault0.blif", lit "beyond_PO1fault0.blif", lit "beyond_PO1fault1.blif"] then
    some []
  else none

end LogicRegression.MixVerilog
