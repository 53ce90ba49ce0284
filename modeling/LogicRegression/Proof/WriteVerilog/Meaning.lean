import LogicRegression.Proof.WriteVerilog.RoundTrip

namespace LogicRegression.WriteVerilog

open Text Structural

section Gates

/-- The first pin of a cell is the output of its gate, the others are the inputs. -/
def MioGate.Relates (gate : MioGate) (pins : List Bool) : Prop :=
  ∃ ins : List Bool, ins.length = gate.pins ∧
    pins = gate.function (fun pin => ins.getD pin false) :: ins

@[simp] theorem MioGate.relates_cons (gate : MioGate) (output : Bool) (ins : List Bool) :
    gate.Relates (output :: ins) ↔
      ins.length = gate.pins ∧ output = gate.function fun pin => ins.getD pin false := by
  constructor
  · rintro ⟨others, size, same⟩
    obtain ⟨rfl, rfl⟩ := List.cons.inj same
    exact ⟨size, rfl⟩
  · rintro ⟨size, rfl⟩
    exact ⟨ins, size, rfl⟩

/-- The cells of `verify.lib`. -/
def verifyCells : Structural.Library := fun name =>
  (verifyLib.find? fun gate => gate.name = name).map MioGate.Relates

/-- The gates of the library file have different names. -/
theorem verifyCells_eq {gate : MioGate} (listed : gate ∈ verifyLib) :
    verifyCells gate.name = some gate.Relates := by
  have found : verifyLib.find? (fun other => other.name = gate.name) = some gate := by
    simp only [verifyLib, List.mem_cons, List.not_mem_nil, or_false] at listed
    rcases listed with rfl | rfl | rfl | rfl | rfl | rfl | rfl | rfl | rfl | rfl <;> rfl
  rw [verifyCells, found]
  rfl

/-- A gate reads its own pins only. -/
theorem function_congr {gate : MioGate} (listed : gate ∈ verifyLib) {a b : ℕ → Bool}
    (same : ∀ pin < gate.pins, a pin = b pin) : gate.function a = gate.function b := by
  simp only [verifyLib, List.mem_cons, List.not_mem_nil, or_false] at listed
  rcases listed with rfl | rfl | rfl | rfl | rfl | rfl | rfl | rfl | rfl | rfl <;>
    simp_all

end Gates

section Network

variable {net : Network}

/-- The pins of a cell are related exactly when its node is consistent. -/
theorem relates_iff {node : Node} (gate : node.gate ∈ verifyLib) (value : Text → Bool) :
    node.gate.Relates ((node.net :: node.fanins).map value) ↔
      value node.net = node.gate.function fun pin => value (node.fanins.getD pin []) := by
  have same : node.gate.function (fun pin => (node.fanins.map value).getD pin false) =
      node.gate.function fun pin => value (node.fanins.getD pin []) := by
    apply function_congr gate
    intro pin inside
    have place : pin < node.fanins.length := by rwa [node.fits]
    simp [place]
  rw [← same, List.map_cons, MioGate.relates_cons, List.length_map]
  exact and_iff_right node.fits

/-- A naming keeps the nets apart from one another and from the two constants. -/
structure Faithful (net : Network) (word : Text → Text) : Prop where
  injective : Set.InjOn word {name | name ∈ net.nets}
  noConstant : ∀ name ∈ net.nets, word name ≠ lit "1'b0" ∧ word name ≠ lit "1'b1"

/-- The values of the nets of a network as values of the written words. -/
noncomputable def written (net : Network) (word : Text → Text) (value : Text → Bool) : Text → Bool :=
  Function.extend (fun name : {name // name ∈ net.nets} => word name) (fun name => value name)
    fun token => decide (token = lit "1'b1")

section Written

variable {word : Text → Text} (faithful : Faithful net word) (value : Text → Bool)
include faithful

theorem written_word {name : Text} (listed : name ∈ net.nets) :
    written net word value (word name) = value name :=
  (Set.injOn_iff_injective.mp faithful.injective).extend_apply _ _ ⟨name, listed⟩

theorem written_constants : Constants (written net word value) where
  zero := Function.extend_apply' _ _ _ fun ⟨name, same⟩ => (faithful.noConstant name name.2).1 same
  one := Function.extend_apply' _ _ _ fun ⟨name, same⟩ => (faithful.noConstant name name.2).2 same

theorem map_written {names : List Text} (listed : names ⊆ net.nets) :
    (names.map word).map (written net word value) = names.map value := by
  rw [List.map_map]
  exact List.map_congr_left fun name inside => written_word faithful value (listed inside)

end Written

/-- A faithful naming keeps the meaning of the network. -/
theorem allows_named_iff (gates : ∀ node ∈ net.nodes, node.gate ∈ verifyLib) {word : Text → Text}
    (faithful : Faithful net word) (title : Text) (pins : List Bool) :
    Structural.Allows verifyCells (net.named word title) pins ↔ net.Allows pins := by
  have cellwise (value other : Text → Bool)
      (same : ∀ names : List Text, names ⊆ net.nets → (names.map word).map other = names.map value) :
      (∀ cell ∈ (net.named word title).cells, ∃ relation, verifyCells cell.name = some relation ∧
        relation (cell.pins.map other)) ↔ net.Consistent value := by
    rw [Network.named, List.forall_mem_map]
    refine forall₂_congr fun node listed => ?_
    rw [← relates_iff (gates node listed) value, ← same _ (pins_subset listed)]
    rw [show (node.cell word).name = node.gate.name from rfl, verifyCells_eq (gates node listed)]
    simp only [Option.some.injEq, exists_eq_left']
    rfl
  have ports (value other : Text → Bool)
      (same : ∀ names : List Text, names ⊆ net.nets → (names.map word).map other = names.map value) :
      (net.named word title).ports.map other = (net.pis ++ net.pos).map value :=
    same _ (List.append_subset.mpr ⟨pis_subset, pos_subset⟩)
  constructor
  · rintro ⟨other, -, cells, rfl⟩
    have same (names : List Text) (_ : names ⊆ net.nets) :
        (names.map word).map other = names.map fun name => other (word name) := List.map_map
    exact ⟨_, (cellwise _ other same).mp cells, ports _ other same⟩
  · rintro ⟨value, consistent, rfl⟩
    have same (names : List Text) (listed : names ⊆ net.nets) :
        (names.map word).map (written net word value) = names.map value :=
      map_written faithful value listed
    exact ⟨written net word value, written_constants faithful value,
      (cellwise value _ same).mpr consistent, (ports value _ same).symm⟩

/-- The constants of one bit are no written names. -/
theorem shown_ne_constant {constant : Text} (first : constant.head? = some '1')
    (quoted : '\'' ∈ constant) (name : Text) : shown name ≠ constant := by
  rintro rfl
  rw [shown] at first quoted
  split at quoted
  · next plain => exact absurd (char_of_isPlain plain quoted) (by decide)
  · next escaped =>
      rw [if_neg escaped] at first
      exact absurd first (by simp)

theorem shown_faithful (net : Network) : Faithful net shown where
  injective := shown_injective.injOn
  noConstant name _ := ⟨shown_ne_constant rfl (by decide) name, shown_ne_constant rfl (by decide) name⟩

/-- The module that is written means what the network means. -/
theorem allows_module_iff (legible : net.Legible) (pins : List Bool) :
    Structural.Allows verifyCells net.module pins ↔ net.Allows pins :=
  allows_named_iff legible.gates (shown_faithful net) _ pins

/-- The text of a mapped network is read as one module with its ports, its wires and a cell for each
gate, whose pins are the values that its gates allow. -/
theorem writeVerilog_sound (net : Network) (legible : net.Legible) :
    Structural.read (writeVerilog net) = some [net.module] ∧ net.module.name = shown net.name ∧
      net.module.inputs = net.pis.map shown ∧ net.module.outputs = net.pos.map shown ∧
      net.module.ports = net.module.inputs ++ net.module.outputs ∧
      net.module.wires = net.wires.map shown ∧
      net.module.cells = net.nodes.map (Node.cell shown) ∧
      ∀ pins, Structural.Allows verifyCells net.module pins ↔ net.Allows pins :=
  ⟨read_writeVerilog net legible, rfl, rfl, rfl, List.map_append, rfl, rfl,
    allows_module_iff legible⟩

/-- A legible network of this name computes this function. -/
structure Network.Realizes (net : Network) (name : Text) {n m : ℕ} (f : (Fin n → Bool) → Fin m → Bool) :
    Prop where
  legible : net.Legible
  name : net.name = name
  computes : net.Computes f

/-- Each net of a network has one driver and depends on the inputs without a cycle, and the flags of
the nodes tell the outputs. -/
structure Network.WellFormed (net : Network) : Prop where
  terminals : (net.pis ++ net.pos).Nodup
  single : (net.pis ++ net.nodes.map Node.net).Nodup
  driven : ∀ po ∈ net.pos, po ∈ net.nodes.map Node.net
  closed : ∀ node ∈ net.nodes, ∀ fanin ∈ node.fanins, fanin ∈ net.pis ++ net.nodes.map Node.net
  flags : ∀ node ∈ net.nodes, node.fanoutIsCo = true ↔ node.net ∈ net.pos
  acyclic : ∃ rank : Text → ℕ, ∀ node ∈ net.nodes, ∀ fanin ∈ node.fanins, rank fanin < rank node.net

end Network

section Example

/-- A network with an escaped name and a constant. -/
def smallNetwork : Network where
  name := lit "top"
  library := verifyLib
  pis := [lit "a[0]", lit "b"]
  pos := [lit "z", lit "y"]
  nodes := [⟨⟨lit "nand", 2, fun a => !(a 0 && a 1)⟩, lit "z", [lit "a[0]", lit "b"], rfl, true⟩,
    ⟨⟨lit "one", 0, fun _ => true⟩, lit "y", [], rfl, true⟩]

theorem smallNetwork_legible : smallNetwork.Legible where
  name := ⟨⟨by decide, by decide⟩, by decide, by decide⟩
  names := by
    have all : ∀ name ∈ smallNetwork.nets, (name ≠ [] ∧ ∀ c ∈ name, isSpace c = false) ∧
        (∀ c ∈ name, isMark c = false) ∧ name ≠ lit "endmodule" := by decide
    exact fun name listed => ⟨⟨(all name listed).1.1, (all name listed).1.2⟩, (all name listed).2.1,
      (all name listed).2.2⟩
  observed := by decide
  noFeedthrough := by decide
  library := rfl
  gates := by simp [smallNetwork, verifyLib]

theorem writeVerilog_sound_small :
    Structural.read (writeVerilog smallNetwork) = some [smallNetwork.module] ∧
      smallNetwork.module.name = lit "top" ∧
      smallNetwork.module.inputs = [lit "\\a[0]", lit "b"] ∧
      smallNetwork.module.outputs = [lit "z", lit "y"] ∧
      smallNetwork.module.ports = smallNetwork.module.inputs ++ smallNetwork.module.outputs ∧
      smallNetwork.module.wires = [] ∧
      smallNetwork.module.cells = [⟨lit "nand", [lit "z", lit "\\a[0]", lit "b"]⟩,
        ⟨lit "one", [lit "y"]⟩] ∧
      ∀ pins, Structural.Allows verifyCells smallNetwork.module pins ↔ smallNetwork.Allows pins :=
  writeVerilog_sound smallNetwork smallNetwork_legible

end Example

end LogicRegression.WriteVerilog
