import LogicRegression.Proof.MixVerilog.Reading
import LogicRegression.Proof.WriteVerilog.Completeness

namespace LogicRegression.MixVerilog

open Text Structural

section Names

variable {n m : ℕ} (io : IoNames n m)

theorem take_names : io.names.take n = List.ofFn io.input := by
  apply List.ext_getElem
  · simp [io.size]
  · intro j left right
    simp [IoNames.input]

theorem drop_names : (io.names.drop n).take m = List.ofFn io.output := by
  apply List.ext_getElem
  · simp [io.size]
  · intro k left right
    simp [IoNames.output]

theorem names_eq : io.names = List.ofFn io.input ++ List.ofFn io.output := by
  have rest : (io.names.drop n).take m = io.names.drop n :=
    List.take_of_length_le (by simp [io.size])
  rw [← take_names, ← drop_names, rest, List.take_append_drop]

theorem outputName_eq (k : Fin m) : outputName io.names n k = io.output k := by
  have place : n + k.val < io.names.length := by rw [io.size]; omega
  exact (List.getElem_eq_getD (h := place) []).symm

theorem wireName_eq :
    wireName io.names n m = (List.finRange m).flatMap fun k : Fin m => wireBlock io.names n k := by
  rw [wireName, ← List.map_coe_finRange_eq_range, List.flatMap_map]
  rfl

end Names

section Block

variable {ioNames : List Text} {inputNum i : ℕ} {status : Bool × Bool} {value : Text → Bool}

/-- A gate drives its first pin with its value. -/
theorem holds_gateCell (file : List ModuleDecl) (gate : Gate Text) :
    Holds primitives file (gateCell gate).name ((gateCell gate).pins.map value) ↔
      value gate.output = gate.eval value := by
  have known {own : Primitive} (listed : own ∈ gates) (pins : List Bool) :
      Holds primitives file own.name pins ↔ own.Relates pins :=
    holds_cell_iff (primitives_eq listed) pins
  cases gate with
  | buf output input =>
      have cell := @known ⟨lit "buf", true, fun ins => ins.all id⟩ (by simp [gates])
      refine (cell [value output, value input]).trans ?_
      simp [Gate.output, Gate.eval]
  | or output first second =>
      have cell := @known ⟨lit "or", false, fun ins => ins.any id⟩ (by simp [gates])
      refine (cell [value output, value first, value second]).trans ?_
      simp [Gate.output, Gate.eval]
  | and output first second =>
      have cell := @known ⟨lit "and", false, fun ins => ins.all id⟩ (by simp [gates])
      refine (cell [value output, value first, value second]).trans ?_
      simp [Gate.output, Gate.eval]

/-- The repaired bit of one output. -/
def repairBit (status : Bool × Bool) (main : Bool) (wrong : Bool → Bool) : Bool :=
  (main || (status.1 && wrong false)) && (!status.2 || wrong true)

/-- The gates of an output give it the repaired bit. -/
theorem block_output {main : Bool} {wrong : Bool → Bool}
    (mainNet : value (outputName ioNames inputNum i ++ lit "_main") = main)
    (wrongNets : ∀ b, flagOf status b = true →
      value (outputName ioNames inputNum i ++ wrongSuffix b) = wrong b)
    (gates : ∀ gate ∈ blockGates ioNames inputNum i status, value gate.output = gate.eval value) :
    value (outputName ioNames inputNum i) = repairBit status main wrong := by
  have raised := wrongNets false
  have lowered := wrongNets true
  obtain ⟨first, second⟩ := status
  cases first <;> cases second <;>
    simp_all [blockGates, repairBit, Gate.output, Gate.eval, flagOf, wrongSuffix]

/-- The values of the nets of an output that its gates ask for. -/
def blockBits (main : Bool) (wrong : Bool → Bool) : List Bool :=
  [main, wrong false, wrong true, main || wrong false]

theorem block_gates {main : Bool} {wrong : Bool → Bool}
    (output : value (outputName ioNames inputNum i) = repairBit status main wrong)
    (nets : (wireBlock ioNames inputNum i).map value = blockBits main wrong) :
    ∀ gate ∈ blockGates ioNames inputNum i status, value gate.output = gate.eval value := by
  simp only [wireBlock, blockBits, List.map_cons, List.map_nil, List.cons.injEq, and_true] at nets
  obtain ⟨mainNet, raised, lowered, both⟩ := nets
  obtain ⟨first, second⟩ := status
  cases first <;> cases second <;>
    simp [blockGates, repairBit, Gate.output, Gate.eval, output, mainNet, raised, lowered, both]

end Block

section Top

variable {n m : ℕ} {io : IoNames n m} {status : ℕ → Bool × Bool}

/-- The function of the module: the main circuit, repaired by the submodules of the set flags. -/
def repairedFunction (status : ℕ → Bool × Bool) (main : (Fin n → Bool) → Fin m → Bool)
    (wrong : ℕ → Bool → (Fin n → Bool) → Bool) (x : Fin n → Bool) (k : Fin m) : Bool :=
  repairBit (status k) (main x k) fun b => wrong k b x

variable {file : List ModuleDecl} {main : (Fin n → Bool) → Fin m → Bool}
  {wrong : ℕ → Bool → (Fin n → Bool) → Bool}
  (mainComputes : Computes primitives file (lit "main_circuit") main)
  (subComputes : ∀ fault ∈ faults m status, Computes primitives file
    (submoduleName fault.1 fault.2) fun x (_ : Fin 1) => wrong fault.1 fault.2 x)
include mainComputes subComputes

/-- The conditions on the values of the nets: the gates, the main circuit and the submodules. -/
theorem holds_cells_iff (value : Text → Bool) :
    (∀ cell ∈ (topDecl (topModule io.names n m status)).cells,
        Holds primitives file cell.name (cell.pins.map value)) ↔
      (∀ k : Fin m, ∀ gate ∈ blockGates io.names n k (status k),
          value gate.output = gate.eval value) ∧
        (∀ k, value (io.output k ++ lit "_main") = main (fun j => value (io.input j)) k) ∧
          ∀ fault ∈ faults m status, value (outputName io.names n fault.1 ++ wrongSuffix fault.2) =
            wrong fault.1 fault.2 fun j => value (io.input j) := by
  have inputs : (io.names.take n).map value = List.ofFn fun j => value (io.input j) := by
    rw [take_names, List.map_ofFn]
    rfl
  have mains : (((io.names.drop n).take m).map (· ++ lit "_main")).map value =
      List.ofFn fun k => value (io.output k ++ lit "_main") := by
    rw [drop_names, List.map_ofFn, List.map_ofFn]
    rfl
  have mainPins : (instanceCell (mainCircuit io.names n m)).pins.map value =
      (List.ofFn fun j => value (io.input j)) ++
        List.ofFn fun k => value (io.output k ++ lit "_main") := by
    rw [← inputs, ← mains, ← List.map_append]
    rfl
  have subPins (i : ℕ) (b : Bool) : (instanceCell (submodule io.names n i b)).pins.map value =
      (List.ofFn fun j => value (io.input j)) ++
        List.ofFn fun _ : Fin 1 => value (outputName io.names n i ++ wrongSuffix b) := by
    rw [← inputs, instanceCell, submodule, List.map_append, List.ofFn_succ, List.ofFn_zero]
    rfl
  have gates : (∀ gate ∈ (topModule io.names n m status).gates,
      value gate.output = gate.eval value) ↔ ∀ k : Fin m, ∀ gate ∈ blockGates io.names n k (status k),
        value gate.output = gate.eval value := by
    rw [topModule, List.forall_mem_flatMap]
    constructor
    · intro all k
      have own := all k (List.mem_range.mpr k.isLt)
      rwa [outputGates_eq io.names n k.isLt] at own
    · intro all i listed
      have inside := List.mem_range.mp listed
      rw [outputGates_eq io.names n inside]
      exact all ⟨i, inside⟩
  rw [topDecl, instances_eq, List.forall_mem_append, List.forall_mem_map, List.forall_mem_map,
    List.forall_mem_cons, List.forall_mem_map, ← gates]
  refine and_congr (forall₂_congr fun gate _ => holds_gateCell file gate) (and_congr ?_ ?_)
  · rw [mainPins]
    exact (mainComputes.holds_iff _ _).trans funext_iff
  · refine forall₂_congr fun fault listed => ?_
    rw [subPins]
    exact ((subComputes fault listed).holds_iff _ _).trans ⟨fun same => congrFun same 0,
      fun same => funext fun _ => same⟩

variable (plain : PlainNames io) (distinct : (io.names ++ wireName io.names n m).Nodup)
include plain

omit mainComputes subComputes in
/-- The nets of the module are no constants. -/
theorem net_ne_constant : ∀ net ∈ io.names ++ wireName io.names n m,
    net ≠ lit "1'b0" ∧ net ≠ lit "1'b1" := by
  have apart {net : Text} (own : WriteVerilog.IsPlain net) : net ≠ lit "1'b0" ∧ net ≠ lit "1'b1" := by
    refine ⟨?_, ?_⟩
    · rintro rfl
      exact absurd own (by decide)
    · rintro rfl
      exact absurd own (by decide)
  intro net listed
  rcases List.mem_append.mp listed with name | wire
  · exact apart (plain.plain net name)
  · obtain ⟨i, inside, own⟩ := List.mem_flatMap.mp wire
    exact apart (ownNets_plain plain (List.mem_range.mp inside) (List.mem_cons_of_mem _ own)).1

include distinct

omit mainComputes subComputes in
/-- The nets of the module can have the values of any inputs. -/
theorem exists_nets (x : Fin n → Bool) (outputs : Fin m → Bool) (mainBit : Fin m → Bool)
    (wrongBit : Fin m → Bool → Bool) :
    ∃ value, Constants value ∧ (∀ j, value (io.input j) = x j) ∧
      (∀ k, value (io.output k) = outputs k) ∧
      ∀ k : Fin m, (wireBlock io.names n k).map value = blockBits (mainBit k) (wrongBit k) := by
  let bits : List Bool := List.ofFn x ++ List.ofFn outputs ++
    (List.finRange m).flatMap fun k => blockBits (mainBit k) (wrongBit k)
  have size : bits.length = (io.names ++ wireName io.names n m).length := by
    have blocks : ((List.finRange m).flatMap fun k => blockBits (mainBit k) (wrongBit k)).length =
        (wireName io.names n m).length := by
      rw [wireName_eq, List.length_flatMap, List.length_flatMap]
      rfl
    simp only [bits, List.length_append, List.length_ofFn, io.size, blocks]
  obtain ⟨value, constants, same⟩ := exists_constants distinct (net_ne_constant plain) size
  rw [List.map_append] at same
  obtain ⟨names, wires⟩ := List.append_inj same (by simp [io.size])
  rw [names_eq, List.map_append, List.map_ofFn, List.map_ofFn] at names
  obtain ⟨ins, outs⟩ := ofFn_append_inj.mp names
  rw [wireName_eq, List.map_flatMap] at wires
  have sizes : ∀ k ∈ List.finRange m, ((wireBlock io.names n (k : ℕ)).map value).length =
      (blockBits (mainBit k) (wrongBit k)).length := fun _ _ => rfl
  exact ⟨value, constants, congrFun ins, congrFun outs, fun k =>
    flatMap_inj sizes wires k (List.mem_finRange k)⟩

/-- In a file with these modules the module computes the repaired function, for all flags. -/
theorem topModule_computes
    (found : file.find? (fun m => m.name = lit "top") = some (topDecl (topModule io.names n m status))) :
    Computes primitives file (lit "top") (repairedFunction status main wrong) := by
  have cells := @holds_cells_iff _ _ io status _ _ _ mainComputes subComputes
  have ports : (topDecl (topModule io.names n m status)).ports = List.ofFn io.input ++
      List.ofFn io.output := by
    change io.names.take (n + m) = _
    rw [← io.size, List.take_length, names_eq]
  have pinValues (value : Text → Bool) : (topDecl (topModule io.names n m status)).ports.map value =
      (List.ofFn fun j => value (io.input j)) ++ List.ofFn fun k => value (io.output k) := by
    rw [ports, List.map_append, List.map_ofFn, List.map_ofFn]
    rfl
  have listed {k : Fin m} {b : Bool} (flag : flagOf (status k) b = true) :
      ((k : ℕ), b) ∈ faults m status := mem_faults.mpr ⟨k.isLt, flag⟩
  intro pins
  rw [holds_module_iff (primitives_free (c := 't') rfl (by decide)) found]
  constructor
  · rintro ⟨value, constants, inner, rfl⟩
    obtain ⟨gates, mains, subs⟩ := (cells value).mp inner
    refine ⟨fun j => value (io.input j), ?_⟩
    rw [pinValues]
    congr 2
    funext k
    rw [← outputName_eq]
    exact block_output ((congrArg (fun name => value (name ++ lit "_main")) (outputName_eq io k)).trans
      (mains k)) (fun b flag => subs _ (listed flag)) (gates k)
  · rintro ⟨x, rfl⟩
    obtain ⟨value, constants, ins, outs, blocks⟩ := exists_nets plain distinct x
      (repairedFunction status main wrong x) (main x) fun k b => wrong k b x
    have same : (fun j => value (io.input j)) = x := funext ins
    refine ⟨value, constants, (cells value).mpr ⟨?_, ?_, ?_⟩, ?_⟩
    · intro k
      exact block_gates ((congrArg value (outputName_eq io k)).trans (outs k)) (blocks k)
    · intro k
      rw [same, ← outputName_eq]
      exact (List.cons.inj (blocks k)).1
    · rintro ⟨i, b⟩ inside
      have block := blocks ⟨i, (mem_faults.mp inside).1⟩
      simp only [wireBlock, blockBits, List.map_cons, List.map_nil, List.cons.injEq] at block
      rw [same]
      cases b
      · exact block.2.1
      · exact block.2.2.1
    · rw [pinValues, same]
      congr 2
      exact (funext outs).symm

end Top

section Modules

variable {n m : ℕ}

/-- The module that is written, the main circuit and one submodule for each fault. -/
def mixedModules (io : IoNames n m) (status : ℕ → Bool × Bool) (mainNet : WriteVerilog.Network)
    (subNet : ℕ → Bool → WriteVerilog.Network) : List ModuleDecl :=
  topDecl (topModule io.names n m status) :: Verilog.rewritten mainNet.module ::
    (faults m status).map fun fault => Verilog.rewritten (subNet fault.1 fault.2).module

variable {io : IoNames n m} {status : ℕ → Bool × Bool} {mainNet : WriteVerilog.Network}
  {subNet : ℕ → Bool → WriteVerilog.Network} {main : (Fin n → Bool) → Fin m → Bool}
  {wrong : ℕ → Bool → (Fin n → Bool) → Bool}
  (mainRealizes : mainNet.Realizes (lit "main_circuit") main)
  (subRealizes : ∀ fault ∈ faults m status, (subNet fault.1 fault.2).Realizes
    (submoduleName fault.1 fault.2) fun x (_ : Fin 1) => wrong fault.1 fault.2 x)
include mainRealizes subRealizes

theorem mixedModules_names : (mixedModules io status mainNet subNet).map ModuleDecl.name =
    lit "top" :: lit "main_circuit" ::
      (faults m status).map fun fault => submoduleName fault.1 fault.2 := by
  have plain : WriteVerilog.IsPlain (lit "main_circuit") := by decide
  have mainName : (Verilog.rewritten mainNet.module).name = lit "main_circuit" := by
    rw [← mainRealizes.name] at plain ⊢
    exact if_pos plain
  rw [mixedModules, List.map_cons, List.map_cons, mainName, List.map_map]
  congr 2
  apply List.map_congr_left
  intro fault listed
  have own := (submoduleName_plain fault.1 fault.2).1
  rw [← (subRealizes fault listed).name] at own ⊢
  exact if_pos own

theorem mixedModules_nodup : ((mixedModules io status mainNet subNet).map ModuleDecl.name).Nodup := by
  have noSub {name : Text} (first : name.head? ≠ some 's') :
      name ∉ (faults m status).map fun fault => submoduleName fault.1 fault.2 := by
    intro listed
    obtain ⟨fault, -, rfl⟩ := List.mem_map.mp listed
    exact first (submoduleName_plain fault.1 fault.2).2.2
  rw [mixedModules_names mainRealizes subRealizes, List.nodup_cons, List.nodup_cons, List.mem_cons,
    not_or]
  refine ⟨⟨by decide, noSub (by decide)⟩, noSub (by decide), faults_nodup.map ?_⟩
  intro first second same
  obtain ⟨index, kind⟩ := submoduleName_inj same
  exact Prod.ext index kind

/-- No module has the name of a gate. -/
theorem mixedModules_free : ∀ own ∈ mixedModules io status mainNet subNet,
    primitives own.name = none := by
  intro own listed
  have name : own.name ∈ (mixedModules io status mainNet subNet).map ModuleDecl.name :=
    List.mem_map_of_mem listed
  rw [mixedModules_names mainRealizes subRealizes] at name
  rcases List.mem_cons.mp name with same | rest
  · rw [same]
    exact primitives_free (c := 't') rfl (by decide)
  · rcases List.mem_cons.mp rest with same | sub
    · rw [same]
      exact primitives_free (c := 'm') rfl (by decide)
    · obtain ⟨fault, -, same⟩ := List.mem_map.mp sub
      rw [← same]
      exact primitives_free (submoduleName_plain fault.1 fault.2).2.2 (by decide)

/-- The modules together compute the repaired function. -/
theorem mixedModules_computes (plain : PlainNames io)
    (distinct : (io.names ++ wireName io.names n m).Nodup) :
    Computes primitives (mixedModules io status mainNet subNet) (lit "top")
      (repairedFunction status main wrong) := by
  have different := @mixedModules_nodup _ _ io status _ _ _ _ mainRealizes subRealizes
  have mainComputes : Computes primitives (mixedModules io status mainNet subNet)
      (lit "main_circuit") main :=
    Verilog.computes_rewritten mainRealizes (by decide) (primitives_free (c := 'm') rfl (by decide))
      different (List.mem_cons_of_mem _ List.mem_cons_self)
  have subComputes : ∀ fault ∈ faults m status,
      Computes primitives (mixedModules io status mainNet subNet) (submoduleName fault.1 fault.2)
        fun x (_ : Fin 1) => wrong fault.1 fault.2 x := by
    intro fault listed
    obtain ⟨own, -, first⟩ := submoduleName_plain fault.1 fault.2
    exact Verilog.computes_rewritten (subRealizes fault listed) own
      (primitives_free first (by decide)) different
      (List.mem_cons_of_mem _ (List.mem_cons_of_mem _ (List.mem_map_of_mem listed)))
  exact topModule_computes mainComputes subComputes plain distinct
    (find_module different List.mem_cons_self)

end Modules

section Mixed

variable {n m : ℕ}

/-- When some fault file exists, the file that is flattened has a module `top` with the ports of the
circuit, the main circuit and one submodule for each fault; `top` computes the function of the main
circuit, repaired by the functions of the submodules with set flags. -/
theorem mixCircuit_repaired (io : IoNames n m) (plain : PlainNames io)
    (distinct : (io.names ++ wireName io.names n m).Nodup) (files : Text → Option Text)
    (faulty : ∃ i < m, faultStatus files i ≠ (false, false))
    (mainNet : WriteVerilog.Network) (subNet : ℕ → Bool → WriteVerilog.Network)
    (circuit : files (lit "beyond_before_fix_circuit.v") =
      some (Verilog.modifyVerilogFormat (WriteVerilog.writeVerilog mainNet)))
    (subs : ∀ fault ∈ faults m (faultStatus files),
      files (faultName fault.1 fault.2.toNat ++ lit ".v") =
        some (WriteVerilog.writeVerilog (subNet fault.1 fault.2)))
    (main : (Fin n → Bool) → Fin m → Bool) (wrong : ℕ → Bool → (Fin n → Bool) → Bool)
    (mainRealizes : mainNet.Realizes (lit "main_circuit") main)
    (subRealizes : ∀ fault ∈ faults m (faultStatus files), (subNet fault.1 fault.2).Realizes
      (submoduleName fault.1 fault.2) fun x (_ : Fin 1) => wrong fault.1 fault.2 x) :
    ∃ modules top, Structural.read (Verilog.modifyVerilogFormat (mixCircuit files io.names n m)) =
        some modules ∧ modules.head? = some top ∧ top.name = lit "top" ∧
      top.inputs = List.ofFn io.input ∧ top.outputs = List.ofFn io.output ∧
      modules.tail = Verilog.rewritten mainNet.module :: (faults m (faultStatus files)).map
        (fun fault => Verilog.rewritten (subNet fault.1 fault.2).module) ∧
      modules.map ModuleDecl.name = lit "top" :: lit "main_circuit" ::
        (faults m (faultStatus files)).map (fun fault => submoduleName fault.1 fault.2) ∧
      Computes primitives modules (lit "top")
        (repairedFunction (faultStatus files) main wrong) := by
  exact ⟨mixedModules io (faultStatus files) mainNet subNet, _,
    read_mixCircuit plain distinct faulty mainRealizes.legible
      (fun fault listed => (subRealizes fault listed).legible) circuit subs,
    rfl, rfl, take_names io, drop_names io, rfl, mixedModules_names mainRealizes subRealizes,
    mixedModules_computes mainRealizes subRealizes plain distinct⟩

section Sample

open WriteVerilog

/-- The outputs of the main circuit are the conjunction, the disjunction and the parity. -/
def mixedMain (x : Fin 2 → Bool) (k : Fin 3) : Bool :=
  if k.val = 0 then (List.ofFn x).all id
  else if k.val = 1 then (List.ofFn x).any id
  else (List.ofFn x).foldl xor false

/-- The patterns of each list of faults. -/
def mixedWrong (i : ℕ) (b : Bool) (x : Fin 2 → Bool) : Bool :=
  if i = 0 then !(List.ofFn x).any id
  else if b then !(List.ofFn x).all id
  else (List.ofFn x).foldl xor false

/-- A network for the main circuit. -/
def mixedNetwork : Network :=
  networkOf (lit "main_circuit") [lit "a", lit "b"] [lit "x_main", lit "y_main", lit "z_main"]
    (bitsOf mixedMain)

/-- A network for each list of faults. -/
def mixedSubNetwork (i : ℕ) (b : Bool) : Network :=
  networkOf (submoduleName i b) [lit "a", lit "b"]
    [(if i = 0 then lit "x" else lit "y") ++ wrongSuffix b]
    (bitsOf fun x (_ : Fin 1) => mixedWrong i b x)

/-- The fault files with the files of the optimiser. -/
def mixedFiles (name : Text) : Option Text :=
  if name = lit "beyond_before_fix_circuit.v" then
    some (Verilog.modifyVerilogFormat (writeVerilog mixedNetwork))
  else if name = lit "beyond_PO0fault0.v" then some (writeVerilog (mixedSubNetwork 0 false))
  else if name = lit "beyond_PO1fault0.v" then some (writeVerilog (mixedSubNetwork 1 false))
  else if name = lit "beyond_PO1fault1.v" then some (writeVerilog (mixedSubNetwork 1 true))
  else faultyFiles name

theorem mixedFiles_faults : faults 3 (faultStatus mixedFiles) = [(0, false), (1, false), (1, true)] := by
  decide

/-- The networks of the sample compute their functions and are well formed. -/
theorem networkOf_sample {name : Text} {outputs : List Text} {m : ℕ}
    (f : (Fin 2 → Bool) → Fin m → Bool) (isName : IsName name)
    (names : ∀ net ∈ [lit "a", lit "b"] ++ outputs, IsName net ∧ ¬ IsInner net)
    (distinct : ([lit "a", lit "b"] ++ outputs).Nodup) (observed : outputs ≠ [])
    (depth : outputs.length = m) :
    (networkOf name [lit "a", lit "b"] outputs (bitsOf f)).Realizes name f ∧
      (networkOf name [lit "a", lit "b"] outputs (bitsOf f)).WellFormed := by
  obtain ⟨realizes, wellFormed, -⟩ :=
    networkOf_realizes isName names distinct observed rfl (bitsOf_ofFn f) depth
  exact ⟨realizes, wellFormed⟩

theorem mixedNetwork_realizes :
    mixedNetwork.Realizes (lit "main_circuit") mixedMain ∧ mixedNetwork.WellFormed :=
  networkOf_sample mixedMain (by decide) (by decide) (by decide) (by decide) rfl

theorem mixedSubNetwork_realizes {i : ℕ} {b : Bool} (listed : (i, b) ∈ faults 3 (faultStatus mixedFiles)) :
    (mixedSubNetwork i b).Realizes (submoduleName i b) (fun x (_ : Fin 1) => mixedWrong i b x) ∧
      (mixedSubNetwork i b).WellFormed := by
  rw [mixedFiles_faults] at listed
  have cases : (i, b) = (0, false) ∨ (i, b) = (1, false) ∨ (i, b) = (1, true) := by simpa using listed
  rcases cases with same | same | same
  · obtain ⟨rfl, rfl⟩ := Prod.mk.inj same
    exact networkOf_sample _ (by decide) (by decide) (by decide) (by decide) rfl
  · obtain ⟨rfl, rfl⟩ := Prod.mk.inj same
    exact networkOf_sample _ (by decide) (by decide) (by decide) (by decide) rfl
  · obtain ⟨rfl, rfl⟩ := Prod.mk.inj same
    exact networkOf_sample _ (by decide) (by decide) (by decide) (by decide) rfl

theorem mixedFiles_circuit : mixedFiles (lit "beyond_before_fix_circuit.v") =
    some (Verilog.modifyVerilogFormat (writeVerilog mixedNetwork)) := if_pos rfl

theorem mixedFiles_subs : ∀ fault ∈ faults 3 (faultStatus mixedFiles),
    mixedFiles (faultName fault.1 fault.2.toNat ++ lit ".v") =
      some (writeVerilog (mixedSubNetwork fault.1 fault.2)) := by
  rw [mixedFiles_faults]
  simp only [List.forall_mem_cons]
  refine ⟨?_, ?_, ?_, fun _ none => absurd none List.not_mem_nil⟩
  · exact (if_neg (by decide)).trans (if_pos (by decide))
  · exact (if_neg (by decide)).trans ((if_neg (by decide)).trans (if_pos (by decide)))
  · exact (if_neg (by decide)).trans ((if_neg (by decide)).trans ((if_neg (by decide)).trans
      (if_pos (by decide))))

theorem mixedFiles_repaired : repairedFunction (faultStatus mixedFiles) mixedMain mixedWrong =
    fun (x : Fin 2 → Bool) (k : Fin 3) =>
      if k = 0 then (x 0 && x 1) || !(x 0 || x 1)
      else if k = 1 then (x 0 || x 1 || (x 0 ^^ x 1)) && !(x 0 && x 1)
      else x 0 ^^ x 1 := by
  have first : faultStatus mixedFiles 0 = (true, false) := by decide
  have second : faultStatus mixedFiles 1 = (true, true) := by decide
  have third : faultStatus mixedFiles 2 = (false, false) := by decide
  funext x k
  fin_cases k
  · simp [repairedFunction, repairBit, mixedMain, mixedWrong, first]
  · simp [repairedFunction, repairBit, mixedMain, mixedWrong, second]
  · simp [repairedFunction, repairBit, mixedMain, mixedWrong, third]

theorem mixCircuit_repaired_sample :
    ∃ modules top, Structural.read (Verilog.modifyVerilogFormat
        (mixCircuit mixedFiles mixedNames.names 2 3)) = some modules ∧
      modules.head? = some top ∧ top.name = lit "top" ∧ top.inputs = [lit "a", lit "b"] ∧
      top.outputs = [lit "x", lit "y", lit "z"] ∧
      modules.tail = Verilog.rewritten mixedNetwork.module ::
        [(0, false), (1, false), (1, true)].map
          (fun fault => Verilog.rewritten (mixedSubNetwork fault.1 fault.2).module) ∧
      modules.map ModuleDecl.name = [lit "top", lit "main_circuit", lit "submodule0fault0",
        lit "submodule1fault0", lit "submodule1fault1"] ∧
      Computes primitives modules (lit "top") fun (x : Fin 2 → Bool) (k : Fin 3) =>
        if k = 0 then (x 0 && x 1) || !(x 0 || x 1)
        else if k = 1 then (x 0 || x 1 || (x 0 ^^ x 1)) && !(x 0 && x 1)
        else x 0 ^^ x 1 := by
  obtain ⟨modules, top, read, head, name, inputs, outputs, others, names, computes⟩ :=
    mixCircuit_repaired mixedNames ⟨by decide, by decide⟩ (by decide) mixedFiles
      ⟨0, by decide, by decide⟩ mixedNetwork mixedSubNetwork mixedFiles_circuit mixedFiles_subs
      mixedMain mixedWrong mixedNetwork_realizes.1 fun fault listed =>
        (mixedSubNetwork_realizes listed).1
  rw [mixedFiles_faults] at others names
  rw [mixedFiles_repaired] at computes
  exact ⟨modules, top, read, head, name, inputs, outputs, others, names, computes⟩

end Sample

end Mixed

end LogicRegression.MixVerilog
