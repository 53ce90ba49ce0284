import Mathlib.Tactic
import Mathlib.Data.List.Count

namespace LogicRegression

/-- A gate drives its output net from one or two input nets. -/
inductive Gate (N : Type) where
  | buf (output input : N)
  | or (output first second : N)
  | and (output first second : N)
  deriving DecidableEq

/-- The pins of an instance are the inputs and then the outputs of its module. -/
structure Instance (N : Type) where
  module : N
  inputs : List N
  outputs : List N
  deriving DecidableEq

/-- A module has its ports, its declared wires and what drives them. -/
structure Netlist (N : Type) where
  ports : List N
  inputs : List N
  outputs : List N
  wires : List N
  gates : List (Gate N)
  instances : List (Instance N)

namespace Gate

variable {N : Type}

def output : Gate N → N
  | buf output _ => output
  | or output _ _ => output
  | and output _ _ => output

def inputs : Gate N → List N
  | buf _ input => [input]
  | or _ first second => [first, second]
  | and _ first second => [first, second]

def eval (value : N → Bool) : Gate N → Bool
  | buf _ input => value input
  | or _ first second => value first || value second
  | and _ first second => value first && value second

/-- The gates update their outputs in turn. -/
def run [DecidableEq N] (gates : List (Gate N)) (value : N → Bool) : N → Bool :=
  gates.foldl (fun value gate => Function.update value gate.output (gate.eval value)) value

@[simp] theorem run_nil [DecidableEq N] (value : N → Bool) : run [] value = value := rfl

@[simp] theorem run_cons [DecidableEq N] (gate : Gate N) (gates : List (Gate N)) (value : N → Bool) :
    run (gate :: gates) value =
      run gates (Function.update value gate.output (gate.eval value)) := rfl

end Gate

namespace Netlist

variable {N : Type}

/-- The nets that a gate or an output pin drives, with repetition. -/
def drivers (netlist : Netlist N) : List N :=
  netlist.gates.map Gate.output ++ netlist.instances.flatMap Instance.outputs

/-- The nets that a gate or an input pin reads. -/
def readers (netlist : Netlist N) : List N :=
  netlist.gates.flatMap Gate.inputs ++ netlist.instances.flatMap Instance.inputs

/-- Each output and each wire has one driver, each net is declared and each wire is read. -/
structure WellFormed [BEq N] (netlist : Netlist N) : Prop where
  driven : ∀ net ∈ netlist.outputs ++ netlist.wires, netlist.drivers.count net = 1
  declared : ∀ net ∈ netlist.drivers ++ netlist.readers, net ∈ netlist.ports ∨ net ∈ netlist.wires
  consumed : ∀ wire ∈ netlist.wires, wire ∈ netlist.readers

end Netlist

namespace Netlist

/-- When only one item has a block, the blocks together are this one. -/
theorem flatMap_of_unique {A B : Type} {items : List A} {block : A → List B}
    (distinct : items.Nodup) {item : A} (listed : item ∈ items)
    (unique : ∀ other ∈ items, other ≠ item → block other = []) :
    items.flatMap block = block item := by
  obtain ⟨before, after, rfl⟩ := List.append_of_mem listed
  rw [List.nodup_append, List.nodup_cons] at distinct
  have first : before.flatMap block = [] := by
    rw [List.flatMap_eq_nil_iff]
    intro other inside
    exact unique other (List.mem_append_left _ inside)
      (distinct.2.2 other inside item List.mem_cons_self)
  have last : after.flatMap block = [] := by
    rw [List.flatMap_eq_nil_iff]
    intro other inside
    exact unique other (List.mem_append_right _ (List.mem_cons_of_mem item inside))
      fun same => distinct.2.1.1 (same ▸ inside)
  rw [List.flatMap_append, List.flatMap_cons, first, last, List.nil_append, List.append_nil]

/-- A property that holds in the block of one item only is counted there. -/
theorem countP_flatMap_of_unique {A B : Type} {p : B → Bool} {items : List A} {block : A → List B}
    (distinct : items.Nodup) {item : A} (listed : item ∈ items)
    (unique : ∀ other ∈ items, other ≠ item → ∀ b ∈ block other, ¬ p b) :
    (items.flatMap block).countP p = (block item).countP p := by
  have occurrences := flatMap_of_unique distinct listed fun other inside apart =>
    List.filter_eq_nil_iff.mpr (unique other inside apart)
  rw [List.countP_eq_length_filter, List.countP_eq_length_filter, List.filter_flatMap, occurrences]

/-- A value that occurs in the block of one item only is counted there. -/
theorem count_flatMap_of_unique {A B : Type} [BEq B] [LawfulBEq B] {items : List A}
    {block : A → List B} (distinct : items.Nodup) {item : A} (listed : item ∈ items) {b : B}
    (unique : ∀ other ∈ items, other ≠ item → b ∉ block other) :
    (items.flatMap block).count b = (block item).count b := by
  apply countP_flatMap_of_unique distinct listed
  intro other inside apart c found same
  exact unique other inside apart (beq_iff_eq.mp same ▸ found)

end Netlist

end LogicRegression
