import LogicRegression.Proof.FixNetwork.Repair
import LogicRegression.Proof.WriteBlif.Model

namespace LogicRegression.FixNetwork

open Text Binary Blif WriteBlif

variable {n m : ℕ} (io : IoNames n m) (po : Fin m) (realPI : List (Fin n))
  (patterns : List (Fin n → Bool))

/-- The lines in front of the table of a fault file. -/
theorem faultBlif_eq (fault wire : Text) (value : Char) :
    ∃ rest, faultBlif fault wire value io.names po realPI patterns =
      headerText (lit "submodule" ++ decimal po ++ fault) (io.names.take n) [io.output po ++ wire]
        rest := by
  have output : io.names.getD (n + po) [] = io.output po := by
    have place : n + po.val < io.names.length := by rw [io.size]; omega
    exact (List.getElem_eq_getD (h := place) []).symm
  have modelLine : lit ".model submodule" ++ decimal po ++ fault =
      spaced [lit ".model", lit "submodule" ++ decimal po ++ fault] := by
    rw [spaced_cons, List.append_assoc, List.append_assoc]
    simp
    rfl
  have inputLine : lit ".inputs" ++ (io.names.take n).flatMap (fun name => ' ' :: name) =
      spaced (lit ".inputs" :: io.names.take n) := (spaced_cons _ _).symm
  have outputLine : lit ".outputs " ++ (io.output po ++ wire) =
      spaced [lit ".outputs", io.output po ++ wire] := by
    rw [spaced_cons]
    simp
    rfl
  rw [faultBlif, output, modelLine, inputLine, outputLine]
  exact ⟨_, rfl⟩

/-- A vector that agrees with the names of the inputs matches the rows that apply. -/
theorem any_faultRows {assignment : Text → Bool} {x : Fin n → Bool}
    (assigns : Assigns io assignment x) (output : Text) (value : Char) :
    (patterns.map fun y => (faultRow realPI y, [value])).any
        (Names.applies ⟨io.names.take n, output,
          patterns.map fun y => (faultRow realPI y, [value])⟩ assignment) =
      matched realPI patterns x := by
  have inputs : (io.names.take n).map (fun input => bitChar (assignment input)) =
      (List.finRange n).map fun j => bitChar (x j) := by
    rw [MixVerilog.take_names, List.map_ofFn, ← List.ofFn_eq_map]
    congr 1
    exact funext fun j => congrArg bitChar (assigns.input j)
  rw [List.any_map, matched]
  congr 1
  funext y
  rw [Function.comp_apply, Names.applies, decide_eq_decide, inputs]
  exact covers_faultRow realPI x y

/-- A fault file whose rows have one value describes a submodule with one output. -/
theorem describes_fault {fault wire : Text} (bit : Bool) (f : (Fin n → Bool) → Bool)
    (faultSolid : ∀ c ∈ fault, isSpace c = false) (wireSolid : ∀ c ∈ wire, isSpace c = false)
    (evaluates : ∀ assignment x, Assigns io assignment x →
      Names.eval ⟨io.names.take n, io.output po ++ wire,
        patterns.map fun y => (faultRow realPI y, [bitChar bit])⟩ assignment = f x) :
    Describes (faultBlif fault wire (bitChar bit) io.names po realPI patterns)
      (lit "submodule" ++ decimal po ++ fault) (io.names.take n) [io.output po ++ wire]
      fun x (_ : Fin 1) => f x := by
  have solid : isSpace (bitChar bit) = false := by cases bit <;> decide
  have noDot : bitChar bit ≠ '.' := by cases bit <;> decide
  have numbered : IsWord (lit "submodule" ++ decimal po ++ fault) :=
    (IsWord.append ⟨by decide, by decide⟩ (decimal_isWord po).solid).append faultSolid
  have outputWord : IsWord (io.output po ++ wire) :=
    (io.words _ (List.getElem_mem _)).append wireSolid
  have tables := readNames_faultBlif realPI io po faultSolid wireSolid solid noDot patterns
  obtain ⟨rest, text⟩ := faultBlif_eq io po realPI patterns fault wire (bitChar bit)
  obtain ⟨model, inputs, outputs, -⟩ := headerText_read rest numbered io.inputWords
    (List.forall_mem_singleton.mpr outputWord)
  rw [← text] at model inputs outputs
  refine ⟨⟨model, inputs, outputs, by rw [tables]; rfl, ?_, ?_⟩, fun assignment x assigns => ?_⟩
  · rw [tables, List.forall_mem_singleton]
    exact List.Subset.refl _
  · rw [tables, List.forall_mem_singleton]
    constructor
    · rw [List.forall_mem_map]
      intro y _
      simp [faultRow, io.size]
    · rw [List.forall_mem_map]
      intro y _ c inside
      obtain ⟨j, -, rfl⟩ := List.mem_map.mp inside
      split
      · cases y j
        · exact .inr (.inl rfl)
        · exact .inr (.inr rfl)
      · exact .inl rfl
    · cases bit
      · exact .inr (by simp [bitChar])
      · exact .inl (by simp [bitChar])
  · have own : value (faultBlif fault wire (bitChar bit) io.names po realPI patterns) assignment
        (io.output po ++ wire) = f x := by
      rw [value, tables, List.find?_cons_of_pos (by simp)]
      exact evaluates assignment x assigns
    simp [own]

/-- The submodule of the first list is one where a pattern matches. -/
theorem describes_fault0 : Describes (fault0Blif io.names po realPI patterns)
    (lit "submodule" ++ decimal po ++ lit "fault0") (io.names.take n) [io.output po ++ lit "_wrong1"]
    fun x (_ : Fin 1) => matched realPI patterns x := by
  apply describes_fault io po realPI patterns true _ (by decide) (by decide)
  intro assignment x assigns
  rw [Names.eval_onset (by simp [bitChar])]
  exact any_faultRows io realPI patterns assigns _ _

/-- The submodule of the second list is zero where a pattern matches. -/
theorem describes_fault1 (nonempty : patterns ≠ []) :
    Describes (fault1Blif io.names po realPI patterns)
      (lit "submodule" ++ decimal po ++ lit "fault1") (io.names.take n)
      [io.output po ++ lit "_wrong0"] fun x (_ : Fin 1) => !matched realPI patterns x := by
  apply describes_fault io po realPI patterns false _ (by decide) (by decide)
  intro assignment x assigns
  rw [Names.eval_offset (by simp [bitChar]) (by simpa using nonempty)]
  exact congrArg (!·) (any_faultRows io realPI patterns assigns _ _)

end LogicRegression.FixNetwork
