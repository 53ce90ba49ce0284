import LogicRegression.Proof.Main.Repaired

namespace LogicRegression.Main

open Text Program Structural WriteVerilog MixVerilog FixNetwork

variable {n m : ℕ}

/-- The function that the program learns: each output of the first circuit is raised at the vectors of
its first list of faults and lowered at those of the second one. -/
def learnedFunction (golden first : (Fin n → Bool) → Fin m → Bool) (realPI : Fin m → List (Fin n))
    (tested : Fin m → List (Fin n → Bool)) (x : Fin n → Bool) (i : Fin m) : Bool :=
  (first x i || matched (realPI i) (wrongAt golden first (tested i) i true) x) &&
    !matched (realPI i) (wrongAt golden first (tested i) i false) x

section Files

variable {io : IoNames n m} {golden first : (Fin n → Bool) → Fin m → Bool}
  {realPI : Fin m → List (Fin n)} {tested : Fin m → List (Fin n → Bool)} {files : Text → Option Text}
  (repaired : ∀ i, Repaired io golden first (realPI i) i (tested i) files)
include repaired

theorem flagOf_faultStatus (i : Fin m) (b : Bool) : flagOf (faultStatus files i) b =
    !(wrongAt golden first (tested i) i !b).isEmpty := by
  rw [← (repaired i b).flag]
  cases b <;> rfl

/-- Each fault that is inferred has a file of the optimiser. -/
theorem fault_written (i : Fin m) (b : Bool) (flag : flagOf (faultStatus files i) b = true) :
    ∃ sub, files (faultFile i b.toNat (lit ".v")) = some (writeVerilog sub) ∧
      Maps sub (submoduleName i b) (io.names.take n) [io.output i ++ wrongSuffix b]
        fun x (_ : Fin 1) => b ^^ matched (realPI i) (wrongAt golden first (tested i) i !b) x := by
  have nonempty : wrongAt golden first (tested i) i (!b) ≠ [] := by
    rw [flagOf_faultStatus repaired] at flag
    simpa using flag
  exact (repaired i b).submodule nonempty

/-- The gates of the mixed circuit compute the learned function. -/
theorem repairedFunction_learned {wrong : ℕ → Bool → (Fin n → Bool) → Bool}
    (wrongs : ∀ (i : Fin m) b x, wrong i b x =
      (b ^^ matched (realPI i) (wrongAt golden first (tested i) i !b) x)) :
    repairedFunction (faultStatus files) first wrong = learnedFunction golden first realPI tested := by
  funext x i
  have raised := flagOf_faultStatus repaired i false
  have lowered := flagOf_faultStatus repaired i true
  rw [repairedFunction, repairBit, learnedFunction, wrongs, wrongs]
  -- a list without faults matches no vector
  have first (value : Bool) : (!(wrongAt golden first (tested i) i value).isEmpty &&
      matched (realPI i) (wrongAt golden first (tested i) i value) x) =
        matched (realPI i) (wrongAt golden first (tested i) i value) x := by
    cases wrongAt golden first (tested i) i value <;> rfl
  change (faultStatus files i).1 = _ at raised
  change (faultStatus files i).2 = _ at lowered
  rw [raised, lowered, Bool.false_xor, Bool.true_xor, first, ← Bool.not_and, first]
  rfl

variable (regular : Regular io) (observed : 0 < m) {net : Network} (optimised : Optimised net files)
  (maps : Maps net (lit "main_circuit") (io.names.take n)
    (List.ofFn fun k => io.output k ++ lit "_main") first)
include regular observed optimised maps

/-- The file that is flattened is a design of the learned function. -/
theorem mixed_design : ∃ modules top,
    Structural.read (Verilog.modifyVerilogFormat (mixCircuit files io.names n m)) = some modules ∧
      IsDesign modules top ∧ top.name = lit "top" ∧ top.inputs = List.ofFn io.input ∧
      top.outputs = List.ofFn io.output ∧
      Computes primitives modules (lit "top") (learnedFunction golden first realPI tested) := by
  have fits {other : Network} {name : Text} {inputs outputs : List Text} {depth : ℕ}
      {f : (Fin n → Bool) → Fin depth → Bool} (own : Maps other name inputs outputs f)
      (mappable : Mappable name inputs outputs n depth) : Fits other n depth :=
    ⟨own.wellFormed, by rw [own.pis, mappable.width], by rw [own.pos, mappable.depth]⟩
  let wrong (k : ℕ) (b : Bool) (x : Fin n → Bool) : Bool :=
    if inside : k < m then b ^^ matched (realPI ⟨k, inside⟩)
      (wrongAt golden first (tested ⟨k, inside⟩) ⟨k, inside⟩ !b) x else false
  have wrongs (i : Fin m) (b : Bool) (x : Fin n → Bool) : wrong i b x =
      (b ^^ matched (realPI i) (wrongAt golden first (tested i) i !b) x) := dif_pos i.isLt
  have learned := repairedFunction_learned repaired wrongs
  by_cases faulty : ∃ i < m, faultStatus files i ≠ (false, false)
  · have written (i : Fin m) (b : Bool) : ∃ sub, flagOf (faultStatus files i) b = true →
        files (faultFile i b.toNat (lit ".v")) = some (writeVerilog sub) ∧
          Maps sub (submoduleName i b) (io.names.take n) [io.output i ++ wrongSuffix b]
            fun x (_ : Fin 1) => wrong i b x := by
      by_cases flag : flagOf (faultStatus files i) b = true
      · obtain ⟨sub, found, own⟩ := fault_written repaired i b flag
        simp only [wrongs]
        exact ⟨sub, fun _ => ⟨found, own⟩⟩
      · exact ⟨net, fun other => absurd other flag⟩
    choose sub subs using written
    let subNet (k : ℕ) (b : Bool) : Network := if inside : k < m then sub ⟨k, inside⟩ b else net
    have subNets : ∀ fault ∈ faults m (faultStatus files),
        files (faultName fault.1 fault.2.toNat ++ lit ".v") =
            some (writeVerilog (subNet fault.1 fault.2)) ∧
          (subNet fault.1 fault.2).Realizes (submoduleName fault.1 fault.2)
            (fun x (_ : Fin 1) => wrong fault.1 fault.2 x) ∧ Fits (subNet fault.1 fault.2) n 1 := by
      rintro ⟨k, b⟩ listed
      obtain ⟨inside, flag⟩ := mem_faults.mp listed
      obtain ⟨found, own⟩ := subs ⟨k, inside⟩ b flag
      have same : subNet k b = sub ⟨k, inside⟩ b := dif_pos inside
      rw [same]
      exact ⟨found, own.realizes, fits own (mappable_submodule regular ⟨k, inside⟩ b)⟩
    have realizes := fun fault listed => (subNets fault listed).2.1
    rw [← learned]
    refine ⟨mixedModules io (faultStatus files) net subNet, _,
      read_mixCircuit regular.plain regular.distinct faulty maps.realizes.legible
        (fun fault listed => (realizes fault listed).legible) optimised.circuit
        fun fault listed => (subNets fault listed).1,
      mixedModules_design maps.realizes realizes (fits maps (mappable_main regular observed))
        (fun fault listed => (subNets fault listed).2.2) regular.plain regular.distinct,
      rfl, take_names io, drop_names io,
      mixedModules_computes maps.realizes realizes regular.plain regular.distinct⟩
  · have correct : ∀ i < m, faultStatus files i = (false, false) := by
      intro i inside
      by_contra wrong
      exact faulty ⟨i, inside, wrong⟩
    have plain : repairedFunction (faultStatus files) first wrong = first := by
      funext x i
      rw [repairedFunction, correct i i.isLt, repairBit]
      simp
    have restorable := restorable_of_maps regular maps
    have terminals := restored_terminals regular.plain restorable
    rw [← learned, plain]
    exact ⟨[restoredModule net], restoredModule net,
      read_restored regular.plain restorable maps.realizes.legible correct optimised.original,
      restoredModule_design regular.plain restorable maps.realizes.legible maps.wellFormed, rfl,
      terminals.1, terminals.2, restoredModule_computes regular.plain restorable maps.realizes⟩

omit observed in
/-- The mixed file has no line on which the library stops the program. -/
theorem mixed_noShort : Verilog.NoShort (mixCircuit files io.names n m) := by
  by_cases faulty : ∃ i < m, faultStatus files i ≠ (false, false)
  · apply noShort_mixCircuit regular.plain regular.distinct faulty
    rw [appendedFiles_faults, List.forall_mem_cons, List.forall_mem_map]
    constructor
    · rw [optimised.circuit, Option.getD_some]
      exact Verilog.noShort_modifyVerilogFormat _
    · rintro ⟨k, b⟩ listed
      obtain ⟨inside, flag⟩ := mem_faults.mp listed
      obtain ⟨sub, found, own⟩ := fault_written repaired ⟨k, inside⟩ b flag
      rw [faultFile] at found
      rw [found, Option.getD_some]
      exact Verilog.noShort_writeVerilog own.realizes.legible
  · have correct : ∀ i < m, faultStatus files i = (false, false) := by
      intro i inside
      by_contra wrong
      exact faulty ⟨i, inside, wrong⟩
    exact noShort_restored regular.plain (restorable_of_maps regular maps) maps.realizes.legible
      correct optimised.original

end Files

end LogicRegression.Main
