import LogicRegression.Library.Structural

namespace LogicRegression.Structural

open Text

section Design

/-- The constants of one bit. -/
def constants : List Text := [lit "1'b0", lit "1'b1"]

variable (file : List ModuleDecl)

/-- The pins that a cell drives: the outputs of a module of the file, or the first pin of a gate. -/
def drives (cell : Cell) : List Text :=
  match file.find? fun m => m.name = cell.name with
  | some m => cell.pins.drop m.inputs.length
  | none => cell.pins.take 1

/-- The other pins of a cell. -/
def reads (cell : Cell) : List Text :=
  match file.find? fun m => m.name = cell.name with
  | some m => cell.pins.take m.inputs.length
  | none => cell.pins.drop 1

/-- Each net of a module is declared once, has one driver and depends on the inputs without a
cycle. -/
structure IsNetlist (m : ModuleDecl) : Prop where
  ports : m.ports = m.inputs ++ m.outputs
  distinct : (m.ports ++ m.wires).Nodup
  declared : ∀ cell ∈ m.cells, ∀ pin ∈ cell.pins, pin ∈ m.ports ++ m.wires ∨ pin ∈ constants
  single : (constants ++ (m.inputs ++ m.cells.flatMap (drives file))).Nodup
  driven : ∀ net ∈ m.outputs ++ m.wires, net ∈ m.cells.flatMap (drives file)
  acyclic : ∃ rank : Text → ℕ, ∀ cell ∈ m.cells, ∀ net ∈ reads file cell,
    ∀ other ∈ drives file cell, rank net < rank other

/-- The modules of a file are netlists. One of them is made of gates and of instances of the others,
and these are made of gates. -/
structure IsDesign (top : ModuleDecl) : Prop where
  netlists : ∀ m ∈ file, IsNetlist file m
  names : (file.map ModuleDecl.name).Nodup
  free : ∀ m ∈ file, primitives m.name = none
  listed : top ∈ file
  flat : ∀ m ∈ file, m ≠ top → Flat primitives m
  instances : ∀ cell ∈ top.cells, primitives cell.name = none →
    ∃ m ∈ file, m ≠ top ∧ m.name = cell.name ∧ cell.pins.length = m.ports.length
  used : ∀ m ∈ file, m ≠ top → ∃ cell ∈ top.cells, cell.name = m.name

variable {file}

/-- A gate drives its first pin. -/
theorem pins_gate (free : ∀ m ∈ file, primitives m.name = none) {cell : Cell}
    (gate : primitives cell.name ≠ none) :
    drives file cell = cell.pins.take 1 ∧ reads file cell = cell.pins.drop 1 := by
  have noModule : file.find? (fun m => m.name = cell.name) = none := by
    rw [List.find?_eq_none]
    intro m listed same
    exact gate (decide_eq_true_eq.mp same ▸ free m listed)
  exact ⟨by rw [drives, noModule], by rw [reads, noModule]⟩

/-- An instance drives the outputs of its module. -/
theorem pins_instance (names : (file.map ModuleDecl.name).Nodup) {m : ModuleDecl} (listed : m ∈ file)
    {cell : Cell} (named : cell.name = m.name) :
    drives file cell = cell.pins.drop m.inputs.length ∧
      reads file cell = cell.pins.take m.inputs.length := by
  have found := find_module names listed
  exact ⟨by rw [drives, named, found], by rw [reads, named, found]⟩

/-- A flat module alone is a design. -/
theorem isDesign_single {m : ModuleDecl} (netlist : IsNetlist [m] m) (flat : Flat primitives m)
    (free : primitives m.name = none) : IsDesign [m] m where
  netlists := List.forall_mem_singleton.mpr netlist
  names := List.nodup_singleton _
  free := List.forall_mem_singleton.mpr free
  listed := List.mem_singleton_self m
  flat := List.forall_mem_singleton.mpr fun other => absurd rfl other
  instances cell listed noGate := absurd noGate (flat cell listed)
  used := List.forall_mem_singleton.mpr fun other => absurd rfl other

/-- The module of a design that is not used is its top module. -/
theorem IsDesign.unused {top : ModuleDecl} (design : IsDesign file top) :
    ∀ m ∈ file, ∀ cell ∈ m.cells, cell.name ≠ top.name := by
  intro m listed cell inside same
  by_cases gate : primitives cell.name = none
  · by_cases own : m = top
    · subst own
      obtain ⟨other, found, apart, named, -⟩ := design.instances cell inside gate
      have distinct := List.inj_on_of_nodup_map design.names found listed (named.trans same)
      exact apart distinct
    · exact design.flat m listed own cell inside gate
  · exact gate (same ▸ design.free top design.listed)

end Design

end LogicRegression.Structural
