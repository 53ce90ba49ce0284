import LogicRegression.Library.Hierarchy
import LogicRegression.Proof.Verilog.Format

namespace LogicRegression.Verilog

open Text Structural WriteVerilog

section Cells

variable (word : Text → Text) {node : Node} (gate : node.gate ∈ verifyLib)
include gate

/-- A rewritten cell drives the net of its node and reads its fanins or a constant. -/
theorem rewrittenCell_pins : ∃ rest, (rewrittenCell (node.cell word)).pins = word node.net :: rest ∧
    ∀ pin ∈ rest, pin ∈ node.fanins.map word ∨ pin ∈ constants := by
  rw [rewrittenCell, show (node.cell word).name = node.gate.name from rfl]
  cases same : constantOf node.gate.name with
  | none => exact ⟨node.fanins.map word, rfl, fun _ listed => .inl listed⟩
  | some constant =>
      have none := fanins_of_constant gate (by simp [same])
      refine ⟨[constant], by simp [Node.cell, none], ?_⟩
      rw [List.forall_mem_singleton]
      right
      rw [constantOf] at same
      split at same
      · cases same
        exact List.mem_cons_self
      · split at same
        · cases same
          exact List.mem_cons_of_mem _ List.mem_cons_self
        · cases same

end Cells

section Network

variable {net : Network} {word : Text → Text} {file : List ModuleDecl}

/-- The wires and the outputs are the driven nets. -/
theorem mem_wires_or {name : Text} (wellFormed : net.WellFormed) :
    name ∈ net.nodes.map Node.net ↔ name ∈ net.pos ∨ name ∈ net.wires := by
  constructor
  · intro listed
    obtain ⟨node, inside, rfl⟩ := List.mem_map.mp listed
    by_cases flag : node.fanoutIsCo = true
    · exact .inl ((wellFormed.flags node inside).mp flag)
    · exact .inr (List.mem_map_of_mem (List.mem_filter.mpr ⟨inside, by simpa using flag⟩))
  · rintro (output | wire)
    · exact wellFormed.driven name output
    · obtain ⟨node, inside, rfl⟩ := List.mem_map.mp wire
      exact List.mem_map_of_mem (List.mem_filter.mp inside).1

/-- The declared names of a network are different. -/
theorem declared_nodup (wellFormed : net.WellFormed) : (net.pis ++ net.pos ++ net.wires).Nodup := by
  have wires : net.wires.Nodup :=
    (List.nodup_append.mp wellFormed.single).2.1.sublist (List.filter_sublist.map _)
  refine List.nodup_append.mpr ⟨wellFormed.terminals, wires, ?_⟩
  intro name terminal other wire same
  subst same
  have driven := (mem_wires_or wellFormed).mpr (.inr wire)
  rcases List.mem_append.mp terminal with input | output
  · exact (List.nodup_append.mp wellFormed.single).2.2 name input name driven rfl
  · obtain ⟨node, inside, rfl⟩ := List.mem_map.mp wire
    obtain ⟨listed, flag⟩ := List.mem_filter.mp inside
    simp [(wellFormed.flags node listed).mpr output] at flag

theorem driven_subset : net.nodes.map Node.net ⊆ net.nets := by
  intro name listed
  obtain ⟨node, inside, rfl⟩ := List.mem_map.mp listed
  exact pins_subset inside List.mem_cons_self

variable (wellFormed : net.WellFormed) (gates : ∀ node ∈ net.nodes, node.gate ∈ verifyLib)
  (faithful : Faithful net word) (title : Text) (free : ∀ m ∈ file, primitives m.name = none)
include gates free

theorem drives_rewritten : (rewritten (net.named word title)).cells.flatMap (drives file) =
    (net.nodes.map Node.net).map word := by
  rw [rewritten, Network.named, List.flatMap_map, List.flatMap_map, List.map_map, List.map_eq_flatMap]
  apply List.flatMap_congr
  intro node listed
  obtain ⟨rest, pins, -⟩ := rewrittenCell_pins word (gates node listed)
  rw [(pins_gate free (flat_rewritten gates word title _
    (List.mem_map_of_mem (List.mem_map_of_mem listed)))).1, pins]
  rfl

include wellFormed faithful

/-- The rewritten module of a well-formed network is a netlist. -/
theorem isNetlist_rewritten : IsNetlist file (rewritten (net.named word title)) where
  ports := List.map_append
  distinct := by
    change ((net.pis ++ net.pos).map word ++ net.wires.map word).Nodup
    rw [← List.map_append]
    refine List.Nodup.map_on (fun first one second two same => ?_) (declared_nodup wellFormed)
    have inside : net.pis ++ net.pos ++ net.wires ⊆ net.nets :=
      List.append_subset.mpr ⟨List.append_subset.mpr ⟨pis_subset, pos_subset⟩, wires_subset⟩
    exact faithful.injective (inside one) (inside two) same
  declared := by
    intro cell listed pin inside
    obtain ⟨_, inner, rfl⟩ := List.mem_map.mp listed
    obtain ⟨node, own, rfl⟩ := List.mem_map.mp inner
    obtain ⟨rest, pins, only⟩ := rewrittenCell_pins word (gates node own)
    have known {name : Text} (net_ : name ∈ net.pis ++ net.nodes.map Node.net) :
        word name ∈ (net.pis ++ net.pos).map word ++ net.wires.map word := by
      rw [← List.map_append]
      apply List.mem_map_of_mem
      rcases List.mem_append.mp net_ with input | driven
      · exact List.mem_append_left _ (List.mem_append_left _ input)
      · rcases (mem_wires_or wellFormed).mp driven with output | wire
        · exact List.mem_append_left _ (List.mem_append_right _ output)
        · exact List.mem_append_right _ wire
    rw [pins] at inside
    rcases List.mem_cons.mp inside with rfl | read
    · exact .inl (known (List.mem_append_right _ (List.mem_map_of_mem own)))
    · rcases only pin read with fanin | constant
      · obtain ⟨name, listed, rfl⟩ := List.mem_map.mp fanin
        exact .inl (known (wellFormed.closed node own name listed))
      · exact .inr constant
  single := by
    have nets : net.pis ++ net.nodes.map Node.net ⊆ net.nets :=
      List.append_subset.mpr ⟨pis_subset, driven_subset⟩
    rw [drives_rewritten gates title free]
    change (constants ++ (net.pis.map word ++ (net.nodes.map Node.net).map word)).Nodup
    rw [← List.map_append, List.nodup_append]
    refine ⟨by decide, List.Nodup.map_on (fun first one second two same =>
      faithful.injective (nets one) (nets two) same) wellFormed.single, ?_⟩
    intro constant listed pin inside same
    obtain ⟨name, own, rfl⟩ := List.mem_map.mp inside
    obtain ⟨zero, one⟩ := faithful.noConstant name (nets own)
    simp only [constants, List.mem_cons, List.not_mem_nil, or_false] at listed
    rcases listed with rfl | rfl
    · exact zero same.symm
    · exact one same.symm
  driven := by
    rw [drives_rewritten gates title free]
    change ∀ pin ∈ net.pos.map word ++ net.wires.map word, _
    rw [← List.map_append, List.forall_mem_map]
    intro name listed
    exact List.mem_map_of_mem ((mem_wires_or wellFormed).mpr (List.mem_append.mp listed))
  acyclic := by
    obtain ⟨rank, below⟩ := wellFormed.acyclic
    let place : Text → ℕ := Function.extend (fun name : {name // name ∈ net.nets} => word name)
      (fun name => rank name + 1) fun _ => 0
    have own {name : Text} (listed : name ∈ net.nets) : place (word name) = rank name + 1 :=
      (Set.injOn_iff_injective.mp faithful.injective).extend_apply _ _ ⟨name, listed⟩
    have constant : ∀ pin ∈ constants, place pin = 0 := by
      intro pin listed
      apply Function.extend_apply'
      rintro ⟨⟨name, inside⟩, same⟩
      obtain ⟨zero, one⟩ := faithful.noConstant name inside
      simp only [constants, List.mem_cons, List.not_mem_nil, or_false] at listed
      rcases listed with rfl | rfl
      · exact zero same
      · exact one same
    refine ⟨place, ?_⟩
    intro cell listed
    have pinsOf := pins_gate free (flat_rewritten gates word title cell listed)
    obtain ⟨_, inner, rfl⟩ := List.mem_map.mp listed
    obtain ⟨node, inside, rfl⟩ := List.mem_map.mp inner
    obtain ⟨rest, pins, only⟩ := rewrittenCell_pins word (gates node inside)
    rw [pinsOf.1, pinsOf.2, pins]
    intro pin read other driven
    obtain rfl : other = word node.net := by simpa using driven
    rw [own (pins_subset inside List.mem_cons_self)]
    rcases only pin read with fanin | known
    · obtain ⟨name, listed, rfl⟩ := List.mem_map.mp fanin
      rw [own (pins_subset inside (List.mem_cons_of_mem _ listed))]
      exact Nat.succ_lt_succ (below node inside name listed)
    · rw [constant pin known]
      exact Nat.succ_pos _

end Network

end LogicRegression.Verilog
