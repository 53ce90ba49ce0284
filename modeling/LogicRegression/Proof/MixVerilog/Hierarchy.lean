import LogicRegression.Proof.MixVerilog.Renaming
import LogicRegression.Proof.Verilog.Hierarchy

namespace LogicRegression.MixVerilog

open Text Structural WriteVerilog

variable {n m : ℕ} {io : IoNames n m} {status : ℕ → Bool × Bool}

section Nets

/-- The wires between the two gates of an output. -/
def newWires (io : IoNames n m) : List Text :=
  (List.range m).map fun i => outputName io.names n i ++ lit "_tks_new_wire"

/-- The inputs come first, then the nets of the instances, the new wires and the outputs. -/
def rank (io : IoNames n m) (net : Text) : ℕ :=
  if net ∈ io.names.take n then 0 else if net ∈ io.names then 3 else if net ∈ newWires io then 2 else 1

theorem wire_notMem (distinct : (io.names ++ wireName io.names n m).Nodup) {i : ℕ} (inside : i < m)
    {net : Text} (listed : net ∈ wireBlock io.names n i) : net ∉ io.names := by
  intro name
  have wire : net ∈ wireName io.names n m :=
    List.mem_flatMap.mpr ⟨i, List.mem_range.mpr inside, listed⟩
  exact (List.nodup_append.mp distinct).2.2 net name net wire rfl

/-- The suffixes of the other wires end differently. -/
theorem notMem_newWires {i : ℕ} {suffix : Text} (other : suffix.getLast? ≠ some 'e')
    (some_ : suffix ≠ []) : outputName io.names n i ++ suffix ∉ newWires io := by
  intro listed
  obtain ⟨j, -, same⟩ := List.mem_map.mp listed
  have ends := congrArg List.getLast? same
  rw [List.getLast?_append_of_ne_nil _ (by decide), List.getLast?_append_of_ne_nil _ some_] at ends
  exact other ends.symm

theorem output_notMem_take {i : ℕ} (inside : i < m) :
    outputName io.names n i ∉ io.names.take n := by
  have place : n + i < io.names.length := by rw [io.size]; omega
  rw [outputName, ← List.getElem_eq_getD (h := place)]
  intro listed
  obtain ⟨j, short, same⟩ := List.mem_iff_getElem.mp listed
  rw [List.getElem_take, io.distinct.getElem_inj_iff] at same
  rw [List.length_take, io.size] at short
  omega

variable (distinct : (io.names ++ wireName io.names n m).Nodup)
include distinct

/-- A net of an instance is below the other nets of its output. -/
theorem rank_instance {i : ℕ} (inside : i < m) {suffix : Text}
    (listed : outputName io.names n i ++ suffix ∈ wireBlock io.names n i)
    (other : suffix.getLast? ≠ some 'e') (some_ : suffix ≠ []) :
    rank io (outputName io.names n i ++ suffix) = 1 := by
  have absent := wire_notMem distinct inside listed
  rw [rank, if_neg fun input => absent (List.mem_of_mem_take input), if_neg absent,
    if_neg (notMem_newWires other some_)]

omit distinct in
theorem rank_output {i : ℕ} (inside : i < m) : rank io (outputName io.names n i) = 3 := by
  rw [rank, if_neg (output_notMem_take inside), if_pos (output_mem io inside)]

theorem rank_newWire {i : ℕ} (inside : i < m) :
    rank io (outputName io.names n i ++ lit "_tks_new_wire") = 2 := by
  have absent := wire_notMem distinct inside
    (show outputName io.names n i ++ lit "_tks_new_wire" ∈ wireBlock io.names n i by simp [wireBlock])
  have listed : outputName io.names n i ++ lit "_tks_new_wire" ∈ newWires io :=
    List.mem_map.mpr ⟨i, List.mem_range.mpr inside, rfl⟩
  rw [rank, if_neg fun input => absent (List.mem_of_mem_take input), if_neg absent, if_pos listed]

/-- The gates of an output read nets of lower ranks. -/
theorem rank_gates {i : ℕ} (inside : i < m) (flags : Bool × Bool) :
    ∀ gate ∈ blockGates io.names n i flags, ∀ net ∈ gate.inputs, rank io net < rank io gate.output := by
  have main : rank io (outputName io.names n i ++ lit "_main") = 1 :=
    rank_instance distinct inside (by simp [wireBlock]) (by decide) (by decide)
  have raised : rank io (outputName io.names n i ++ lit "_wrong1") = 1 :=
    rank_instance distinct inside (by simp [wireBlock]) (by decide) (by decide)
  have lowered : rank io (outputName io.names n i ++ lit "_wrong0") = 1 :=
    rank_instance distinct inside (by simp [wireBlock]) (by decide) (by decide)
  have both := rank_newWire distinct inside
  have output : rank io (outputName io.names n i) = 3 := rank_output inside
  obtain ⟨first, second⟩ := flags
  cases first <;> cases second <;>
    simp [blockGates, Gate.inputs, Gate.output, main, raised, lowered, both, output]

end Nets

section Top

variable {file : List ModuleDecl} (distinct : (io.names ++ wireName io.names n m).Nodup)

theorem ports_eq : (topModule io.names n m status).ports = io.names := by
  change io.names.take (n + m) = io.names
  rw [← io.size, List.take_length]

include distinct

/-- The declared wires are different, and no name of a signal is one of them. -/
theorem names_wires_nodup : (io.names ++ (topModule io.names n m status).wires).Nodup := by
  have wires : (topModule io.names n m status).wires.Nodup := by
    have same : (topModule io.names n m status).wires =
        (List.range m).flatMap fun i => blockWires io.names n i (status i) :=
      List.flatMap_congr fun i listed => declaredWires_eq io.names n (List.mem_range.mp listed) _
    rw [same, List.nodup_flatMap]
    refine ⟨fun i _ => (List.nodup_cons.mp (blockWires_nodup io.names n i (status i))).2,
      List.nodup_range.pairwise_of_forall_ne fun i inside j otherInside apart => ?_⟩
    intro net first second
    exact ownNets_disjoint distinct (List.mem_range.mp inside) (List.mem_range.mp otherInside)
      apart.symm (blockWires_subset io.names n i (status i) (List.mem_cons_of_mem _ first))
      (blockWires_subset io.names n j (status j) (List.mem_cons_of_mem _ second))
  refine List.nodup_append.mpr ⟨io.distinct, wires, ?_⟩
  rintro name listed _ wire rfl
  obtain ⟨i, inside, found⟩ := (mem_wires status).mp wire
  have own := blockWires_subset io.names n i (status i) (List.mem_cons_of_mem _ found)
  rcases List.mem_cons.mp own with rfl | block
  · exact (List.nodup_cons.mp (blockWires_nodup io.names n i (status i))).1 found
  · exact wire_notMem distinct inside block listed

/-- Each net has one driver, and no input is driven. -/
theorem inputs_drivers_nodup :
    ((topModule io.names n m status).inputs ++ (topModule io.names n m status).drivers).Nodup := by
  have wellFormed := topModule_wellFormed status distinct
  have place {net : Text} (listed : net ∈ (topModule io.names n m status).drivers) :
      net ∈ (topModule io.names n m status).outputs ++ (topModule io.names n m status).wires := by
    obtain ⟨i, inside, found⟩ := drivers_subset io status listed
    rcases List.mem_cons.mp found with rfl | wire
    · apply List.mem_append_left
      change _ ∈ (io.names.drop n).take m
      rw [outputs_eq]
      exact List.mem_map_of_mem (List.mem_range.mpr inside)
    · exact List.mem_append_right _ ((mem_wires status).mpr ⟨i, inside, wire⟩)
  refine List.nodup_append.mpr ⟨io.distinct.sublist (List.take_sublist _ _), ?_, ?_⟩
  · rw [List.nodup_iff_count_le_one]
    intro net
    by_cases listed : net ∈ (topModule io.names n m status).drivers
    · exact (wellFormed.driven net (place listed)).le
    · rw [List.count_eq_zero_of_not_mem listed]
      exact Nat.zero_le _
  · rintro input inside _ listed rfl
    rcases List.mem_append.mp (place listed) with output | wire
    · change _ ∈ (io.names.drop n).take m at output
      rw [outputs_eq] at output
      obtain ⟨i, within, rfl⟩ := List.mem_map.mp output
      exact output_notMem_take (List.mem_range.mp within) inside
    · exact (List.nodup_append.mp (names_wires_nodup distinct)).2.2 _
        (List.mem_of_mem_take inside) _ wire rfl

end Top

section Design

/-- A network with the terminals of a module of the mixed file. -/
structure Fits (net : Network) (inputNum outputNum : ℕ) : Prop where
  wellFormed : net.WellFormed
  width : net.pis.length = inputNum
  depth : net.pos.length = outputNum

theorem pins_gateCell {file : List ModuleDecl} (free : ∀ own ∈ file, primitives own.name = none)
    (gate : Gate Text) : primitives (gateCell gate).name ≠ none ∧
      drives file (gateCell gate) = [gate.output] ∧ reads file (gateCell gate) = gate.inputs := by
  have known : primitives (gateCell gate).name ≠ none := by
    cases gate with
    | buf output input =>
        have own := @primitives_eq ⟨lit "buf", true, fun ins => ins.all id⟩ (by simp [gates])
        exact fun none => absurd (own.symm.trans none) (by simp)
    | or output first second =>
        have own := @primitives_eq ⟨lit "or", false, fun ins => ins.any id⟩ (by simp [gates])
        exact fun none => absurd (own.symm.trans none) (by simp)
    | and output first second =>
        have own := @primitives_eq ⟨lit "and", false, fun ins => ins.all id⟩ (by simp [gates])
        exact fun none => absurd (own.symm.trans none) (by simp)
  obtain ⟨driven, read⟩ := pins_gate free known
  refine ⟨known, driven.trans ?_, read.trans ?_⟩
  · cases gate <;> rfl
  · cases gate <;> rfl

variable {mainNet : Network} {subNet : ℕ → Bool → Network} {main : (Fin n → Bool) → Fin m → Bool}
  {wrong : ℕ → Bool → (Fin n → Bool) → Bool}
  (mainRealizes : mainNet.Realizes (lit "main_circuit") main)
  (subRealizes : ∀ fault ∈ faults m status, (subNet fault.1 fault.2).Realizes
    (submoduleName fault.1 fault.2) fun x (_ : Fin 1) => wrong fault.1 fault.2 x)
  (mainFits : Fits mainNet n m) (subFits : ∀ fault ∈ faults m status, Fits (subNet fault.1 fault.2) n 1)
include mainRealizes subRealizes mainFits subFits

/-- An instance drives the outputs of its module and reads the inputs. -/
theorem pins_instanceCell {cell : Instance Text}
    (listed : cell ∈ (topModule io.names n m status).instances) :
    ∃ own ∈ mixedModules io status mainNet subNet, own ≠ topDecl (topModule io.names n m status) ∧
      own.name = cell.module ∧ (instanceCell cell).pins.length = own.ports.length ∧
      drives (mixedModules io status mainNet subNet) (instanceCell cell) = cell.outputs ∧
      reads (mixedModules io status mainNet subNet) (instanceCell cell) = cell.inputs := by
  have names := @mixedModules_names _ _ io status _ _ _ _ mainRealizes subRealizes
  have different := @mixedModules_nodup _ _ io status _ _ _ _ mainRealizes subRealizes
  have take : (io.names.take n).length = n := by simp [io.size]
  -- a module whose terminals are as many as those of its instance
  have fits {net : Network} (inside : Verilog.rewritten net.module ∈ mixedModules io status mainNet subNet)
      (named : (Verilog.rewritten net.module).name = cell.module) (first : cell.module.head? ≠ some 't')
      (inputs : cell.inputs = io.names.take n) (net_ : Fits net n cell.outputs.length) :
      ∃ own ∈ mixedModules io status mainNet subNet, own ≠ topDecl (topModule io.names n m status) ∧
        own.name = cell.module ∧ (instanceCell cell).pins.length = own.ports.length ∧
        drives (mixedModules io status mainNet subNet) (instanceCell cell) = cell.outputs ∧
        reads (mixedModules io status mainNet subNet) (instanceCell cell) = cell.inputs := by
    obtain ⟨driven, read⟩ := @pins_instance _ different _ inside (instanceCell cell) named.symm
    have width : (Verilog.rewritten net.module).inputs.length = cell.inputs.length := by
      rw [inputs, take]
      exact (List.length_map _).trans net_.width
    refine ⟨_, inside, fun same => ?_, named, ?_, ?_, ?_⟩
    · rw [same] at named
      exact first (named ▸ rfl)
    · change (cell.inputs ++ cell.outputs).length = ((net.pis ++ net.pos).map shown).length
      rw [List.length_map, List.length_append, List.length_append, net_.width, net_.depth, inputs, take]
    · rw [driven, width]
      exact List.drop_left
    · rw [read, width]
      exact List.take_left
  rw [mixedModules, List.map_cons, List.map_cons] at names
  obtain ⟨mainName, subNames⟩ := List.cons.inj (List.cons.inj names).2
  rw [instances_eq] at listed
  rcases List.mem_cons.mp listed with rfl | sub
  · have first : (mainCircuit io.names n m).module.head? = some 'm' := rfl
    refine fits (List.mem_cons_of_mem _ List.mem_cons_self) mainName (by rw [first]; decide) rfl ?_
    have size : (mainCircuit io.names n m).outputs.length = m := by simp [mainCircuit, io.size]
    rwa [size]
  · obtain ⟨fault, inside, rfl⟩ := List.mem_map.mp sub
    rw [List.map_map] at subNames
    have first : (submoduleName fault.1 fault.2).head? ≠ some 't' := by
      rw [(submoduleName_plain fault.1 fault.2).2.2]
      decide
    exact fits (List.mem_cons_of_mem _ (List.mem_cons_of_mem _ (List.mem_map_of_mem inside)))
      (List.map_inj_left.mp subNames fault inside) first rfl (subFits fault inside)

variable (plain : PlainNames io) (distinct : (io.names ++ wireName io.names n m).Nodup)
include plain distinct

/-- The module that is written is a netlist. -/
theorem isNetlist_topDecl : IsNetlist (mixedModules io status mainNet subNet)
    (topDecl (topModule io.names n m status)) := by
  have free := @mixedModules_free _ _ io status _ _ _ _ mainRealizes subRealizes
  have wellFormed := topModule_wellFormed status distinct
  have ports : (topDecl (topModule io.names n m status)).ports = io.names :=
    @ports_eq _ _ io status
  have instancePins {cell : Instance Text}
      (listed : cell ∈ (topModule io.names n m status).instances) :
      drives (mixedModules io status mainNet subNet) (instanceCell cell) = cell.outputs ∧
        reads (mixedModules io status mainNet subNet) (instanceCell cell) = cell.inputs := by
    obtain ⟨_, _, _, _, _, pins⟩ := pins_instanceCell mainRealizes subRealizes mainFits subFits listed
    exact pins
  have drivers : (topDecl (topModule io.names n m status)).cells.flatMap
      (drives (mixedModules io status mainNet subNet)) = (topModule io.names n m status).drivers := by
    rw [topDecl, List.flatMap_append, List.flatMap_map, List.flatMap_map, Netlist.drivers,
      List.map_eq_flatMap]
    exact congrArg₂ (· ++ ·) (List.flatMap_congr fun gate _ => (pins_gateCell free gate).2.1)
      (List.flatMap_congr fun cell listed => (instancePins listed).1)
  refine ⟨?_, ?_, ?_, ?_, ?_, rank io, ?_⟩
  · rw [ports]
    change io.names = io.names.take n ++ (io.names.drop n).take m
    rw [take_names, drop_names, ← names_eq]
  · rw [ports]
    exact names_wires_nodup distinct
  · intro cell listed pin inside
    refine .inl (List.mem_append.mpr ?_)
    rcases List.mem_append.mp listed with first | second
    · obtain ⟨gate, own, rfl⟩ := List.mem_map.mp first
      apply wellFormed.declared
      have pins : pin ∈ gate.output :: gate.inputs := by
        cases gate <;> exact inside
      rcases List.mem_cons.mp pins with rfl | read
      · exact List.mem_append_left _ (List.mem_append_left _ (List.mem_map_of_mem own))
      · exact List.mem_append_right _ (List.mem_append_left _ (List.mem_flatMap.mpr ⟨gate, own, read⟩))
    · obtain ⟨cell, own, rfl⟩ := List.mem_map.mp second
      apply wellFormed.declared
      rcases List.mem_append.mp inside with read | driven
      · exact List.mem_append_right _ (List.mem_append_right _ (List.mem_flatMap.mpr ⟨cell, own, read⟩))
      · exact List.mem_append_left _ (List.mem_append_right _ (List.mem_flatMap.mpr ⟨cell, own, driven⟩))
  · rw [drivers, List.nodup_append]
    refine ⟨by decide, inputs_drivers_nodup distinct, ?_⟩
    rintro constant known _ listed rfl
    have named : constant ∈ io.names ++ wireName io.names n m := by
      rcases List.mem_append.mp listed with input | driven
      · exact List.mem_append_left _ (List.mem_of_mem_take input)
      · obtain ⟨i, inside, found⟩ := drivers_subset io status driven
        have own := blockWires_subset io.names n i (status i) found
        rcases List.mem_cons.mp own with rfl | block
        · exact List.mem_append_left _ (output_mem io inside)
        · exact List.mem_append_right _ (List.mem_flatMap.mpr ⟨i, List.mem_range.mpr inside, block⟩)
    have apart := net_ne_constant plain constant named
    simp only [constants, List.mem_cons, List.not_mem_nil, or_false] at known
    exact known.elim apart.1 apart.2
  · intro net listed
    rw [drivers]
    exact List.count_pos_iff.mp (by rw [wellFormed.driven net listed]; exact Nat.one_pos)
  · intro cell listed net read other driven
    rcases List.mem_append.mp listed with first | second
    · obtain ⟨gate, own, rfl⟩ := List.mem_map.mp first
      obtain ⟨-, drivesOf, readsOf⟩ := pins_gateCell free gate
      rw [readsOf] at read
      rw [drivesOf, List.mem_singleton] at driven
      obtain ⟨i, inside, block⟩ := List.mem_flatMap.mp own
      rw [outputGates_eq io.names n (List.mem_range.mp inside)] at block
      rw [driven]
      exact rank_gates distinct (List.mem_range.mp inside) _ gate block net read
    · obtain ⟨cell, own, rfl⟩ := List.mem_map.mp second
      obtain ⟨drivesOf, readsOf⟩ := instancePins own
      rw [readsOf] at read
      rw [drivesOf] at driven
      have input : net ∈ io.names.take n :=
        instanceInputs_subset status (List.mem_flatMap.mpr ⟨cell, own, read⟩)
      have output : other ∈ (topModule io.names n m status).drivers :=
        List.mem_append_right _ (List.mem_flatMap.mpr ⟨cell, own, driven⟩)
      have outside : other ∉ io.names.take n := fun listed =>
        (List.nodup_append.mp (inputs_drivers_nodup distinct)).2.2 other listed other output rfl
      rw [rank, if_pos input, rank, if_neg outside]
      split
      · exact Nat.succ_pos _
      · split <;> exact Nat.succ_pos _

/-- The mixed file is a design whose top module is the one that is written. -/
theorem mixedModules_design : IsDesign (mixedModules io status mainNet subNet)
    (topDecl (topModule io.names n m status)) := by
  have free := @mixedModules_free _ _ io status _ _ _ _ mainRealizes subRealizes
  have different := @mixedModules_nodup _ _ io status _ _ _ _ mainRealizes subRealizes
  -- the other modules are rewritten files of the optimiser
  have written {net : Network} (legible : net.Legible) (wellFormed : net.WellFormed) :
      IsNetlist (mixedModules io status mainNet subNet) (Verilog.rewritten net.module) ∧
        Flat primitives (Verilog.rewritten net.module) :=
    ⟨Verilog.isNetlist_rewritten wellFormed legible.gates (shown_faithful net) _ free,
      Verilog.flat_rewritten legible.gates _ _⟩
  have others : ∀ own ∈ Verilog.rewritten mainNet.module :: (faults m status).map fun fault =>
      Verilog.rewritten (subNet fault.1 fault.2).module,
      IsNetlist (mixedModules io status mainNet subNet) own ∧ Flat primitives own := by
    rw [List.forall_mem_cons, List.forall_mem_map]
    exact ⟨written mainRealizes.legible mainFits.wellFormed, fun fault listed =>
      written (subRealizes fault listed).legible (subFits fault listed).wellFormed⟩
  have instances : ∀ cell ∈ (topModule io.names n m status).instances,
      ∃ own ∈ mixedModules io status mainNet subNet, own ≠ topDecl (topModule io.names n m status) ∧
        own.name = cell.module ∧ (instanceCell cell).pins.length = own.ports.length := by
    intro cell listed
    obtain ⟨own, inside, apart, named, size, -⟩ :=
      pins_instanceCell mainRealizes subRealizes mainFits subFits listed
    exact ⟨own, inside, apart, named, size⟩
  have listed {own : ModuleDecl} (inside : own ∈ mixedModules io status mainNet subNet)
      (apart : own ≠ topDecl (topModule io.names n m status)) :
      own ∈ Verilog.rewritten mainNet.module :: (faults m status).map fun fault =>
        Verilog.rewritten (subNet fault.1 fault.2).module :=
    (List.mem_cons.mp inside).resolve_left apart
  refine ⟨?_, different, free, List.mem_cons_self, fun own inside apart =>
    (others own (listed inside apart)).2, ?_, ?_⟩
  · exact List.forall_mem_cons.mpr ⟨isNetlist_topDecl mainRealizes subRealizes mainFits subFits plain
      distinct, fun own inside => (others own inside).1⟩
  · intro cell inside noGate
    rcases List.mem_append.mp inside with first | second
    · obtain ⟨gate, -, rfl⟩ := List.mem_map.mp first
      exact absurd noGate (pins_gateCell free gate).1
    · obtain ⟨cell, own, rfl⟩ := List.mem_map.mp second
      exact instances cell own
  · intro own inside apart
    have names := @mixedModules_names _ _ io status _ _ _ _ mainRealizes subRealizes
    have cellNames : (topModule io.names n m status).instances.map Instance.module =
        lit "main_circuit" :: (faults m status).map fun fault => submoduleName fault.1 fault.2 := by
      rw [instances_eq, List.map_cons, List.map_map]
      rfl
    rw [mixedModules, List.map_cons, ← cellNames] at names
    have found : own.name ∈ (topModule io.names n m status).instances.map Instance.module := by
      rw [← (List.cons.inj names).2]
      exact List.mem_map_of_mem (listed inside apart)
    obtain ⟨cell, used, same⟩ := List.mem_map.mp found
    exact ⟨instanceCell cell, List.mem_append_right _ (List.mem_map_of_mem used), same⟩

end Design

section Restored

variable {net : Network} (plain : PlainNames io) (restorable : Restorable io net)
  (legible : net.Legible) (wellFormed : net.WellFormed)
include plain restorable legible wellFormed

/-- The renamed file is a design of one module. -/
theorem restoredModule_design : IsDesign [restoredModule net] (restoredModule net) := by
  have free : primitives (restoredModule net).name = none := primitives_free (c := 't') rfl (by decide)
  exact isDesign_single (Verilog.isNetlist_rewritten wellFormed legible.gates
    (restored_faithful plain restorable) _ (List.forall_mem_singleton.mpr free))
    (Verilog.flat_rewritten legible.gates _ _) free

end Restored

section Mixed

/-- When some fault file exists, the file that is flattened is a design with the ports of the circuit:
each net of each module is declared once, has one driver and is on no cycle, each instance fits a
module of the file, and each module but `top` is used and made of gates. -/
theorem mixCircuit_design (io : IoNames n m) (plain : PlainNames io)
    (distinct : (io.names ++ wireName io.names n m).Nodup) (files : Text → Option Text)
    (faulty : ∃ i < m, faultStatus files i ≠ (false, false))
    (mainNet : Network) (subNet : ℕ → Bool → Network)
    (circuit : files (lit "beyond_before_fix_circuit.v") =
      some (Verilog.modifyVerilogFormat (writeVerilog mainNet)))
    (subs : ∀ fault ∈ faults m (faultStatus files),
      files (faultName fault.1 fault.2.toNat ++ lit ".v") = some (writeVerilog (subNet fault.1 fault.2)))
    (main : (Fin n → Bool) → Fin m → Bool) (wrong : ℕ → Bool → (Fin n → Bool) → Bool)
    (mainRealizes : mainNet.Realizes (lit "main_circuit") main) (mainFits : Fits mainNet n m)
    (subRealizes : ∀ fault ∈ faults m (faultStatus files), (subNet fault.1 fault.2).Realizes
      (submoduleName fault.1 fault.2) fun x (_ : Fin 1) => wrong fault.1 fault.2 x)
    (subFits : ∀ fault ∈ faults m (faultStatus files), Fits (subNet fault.1 fault.2) n 1) :
    ∃ modules top, Structural.read (Verilog.modifyVerilogFormat (mixCircuit files io.names n m)) =
        some modules ∧ IsDesign modules top ∧ top.name = lit "top" ∧ top.ports = io.names :=
  ⟨_, _, read_mixCircuit plain distinct faulty mainRealizes.legible
    (fun fault listed => (subRealizes fault listed).legible) circuit subs,
    mixedModules_design mainRealizes subRealizes mainFits subFits plain distinct, rfl,
    @ports_eq _ _ io (faultStatus files)⟩

theorem mixCircuit_design_sample :
    ∃ modules top, Structural.read (Verilog.modifyVerilogFormat
        (mixCircuit mixedFiles mixedNames.names 2 3)) = some modules ∧
      IsDesign modules top ∧ top.name = lit "top" ∧ top.ports = mixedNames.names :=
  mixCircuit_design mixedNames ⟨by decide, by decide⟩ (by decide) mixedFiles
    ⟨0, by decide, by decide⟩ mixedNetwork mixedSubNetwork mixedFiles_circuit mixedFiles_subs
    mixedMain mixedWrong mixedNetwork_realizes.1 ⟨mixedNetwork_realizes.2, rfl, rfl⟩
    (fun _ listed => (mixedSubNetwork_realizes listed).1)
    fun _ listed => ⟨(mixedSubNetwork_realizes listed).2, rfl, rfl⟩

end Mixed

end LogicRegression.MixVerilog
