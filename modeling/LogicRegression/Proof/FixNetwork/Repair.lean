import LogicRegression.Proof.FixNetwork.Comparison
import LogicRegression.Proof.MixVerilog.Blocks

namespace LogicRegression.FixNetwork

open Text Binary MixVerilog

variable {n m : ℕ} {io : IoNames n m}

/-- The nets that enter the gates of one output: the main circuit drives one of them, and each
fault file defines the wire of its submodule. -/
def netValues (io : IoNames n m) (po : Fin m) (realPI : List (Fin n)) (faults : Faults n)
    (main : Bool) (x : Fin n → Bool) (net : Text) : Bool :=
  if net = io.output po ++ lit "_main" then main
  else if net = io.output po ++ lit "_wrong1" then
    Blif.value (fault0Blif io.names po realPI faults.fault0Pattern) (io.value x) net
  else if net = io.output po ++ lit "_wrong0" then
    Blif.value (fault1Blif io.names po realPI faults.fault1Pattern) (io.value x) net
  else false

/-- The repaired output: the gates for the pair of flags on these nets. -/
def repaired (io : IoNames n m) (po : Fin m) (realPI : List (Fin n)) (faults : Faults n)
    (main : Bool) (x : Fin n → Bool) : Bool :=
  Gate.run (outputGates (wireName io.names n m) (io.output po) po
    (!faults.fault0Pattern.isEmpty, !faults.fault1Pattern.isEmpty))
    (netValues io po realPI faults main x) (io.output po)

/-- Some pattern of a list agrees with the vector on the real inputs. -/
def matched (realPI : List (Fin n)) (patterns : List (Fin n → Bool)) (x : Fin n → Bool) : Bool :=
  patterns.any fun y => decide (∀ j ∈ realPI, x j = y j)

section Value

variable (io) (po : Fin m) (realPI : List (Fin n)) (patterns : List (Fin n → Bool))
  (x : Fin n → Bool)

/-- The rows that apply are those of the matching patterns. -/
theorem any_applies {output : Text} {value : Char} :
    (patterns.map fun y => (faultRow realPI y, [value])).any
        (Blif.Names.applies ⟨io.names.take n, output,
          patterns.map fun y => (faultRow realPI y, [value])⟩ (io.value x)) =
      matched realPI patterns x := by
  have inputs : (io.names.take n).map (fun input => bitChar (io.value x input)) =
      (List.finRange n).map fun j => bitChar (x j) := by
    apply List.ext_getElem
    · simp [io.size]
    · intro j left right
      have inside : j < n := by simpa using right
      have same := io.value_input x ⟨j, inside⟩
      rw [IoNames.input, List.get_eq_getElem] at same
      simp [same]
  rw [List.any_map, matched]
  congr 1
  funext y
  rw [Function.comp_apply, Blif.Names.applies, decide_eq_decide, inputs]
  exact covers_faultRow realPI x y

/-- The on-set table is one exactly where a pattern matches. -/
theorem value_fault0 :
    Blif.value (fault0Blif io.names po realPI patterns) (io.value x)
      (io.output po ++ lit "_wrong1") = matched realPI patterns x := by
  have read := readNames_faultBlif realPI io po (show ∀ c ∈ lit "fault0", isSpace c = false by decide)
    (show ∀ c ∈ lit "_wrong1", isSpace c = false by decide) (show isSpace '1' = false by decide)
    (by decide) patterns
  rw [Blif.value, fault0Blif, read, List.find?_cons_of_pos (by simp)]
  change Blif.Names.eval _ _ = _
  rw [Blif.Names.eval_onset (by simp)]
  exact any_applies io realPI patterns x

/-- The off-set table is zero exactly where a pattern matches. -/
theorem value_fault1 (nonempty : patterns ≠ []) :
    Blif.value (fault1Blif io.names po realPI patterns) (io.value x)
      (io.output po ++ lit "_wrong0") = !matched realPI patterns x := by
  have read := readNames_faultBlif realPI io po (show ∀ c ∈ lit "fault1", isSpace c = false by decide)
    (show ∀ c ∈ lit "_wrong0", isSpace c = false by decide) (show isSpace '0' = false by decide)
    (by decide) patterns
  rw [Blif.value, fault1Blif, read, List.find?_cons_of_pos (by simp)]
  change Blif.Names.eval _ _ = _
  rw [Blif.Names.eval_offset (by simp) (by simpa using nonempty)]
  exact congrArg (!·) (any_applies io realPI patterns x)

end Value

/-- Every combination of flags gives the main output, raised on the first list and lowered on the
second. -/
theorem repaired_eq (po : Fin m) (realPI : List (Fin n)) (faults : Faults n) (main : Bool)
    (x : Fin n → Bool) :
    repaired io po realPI faults main x =
      ((main || matched realPI faults.fault0Pattern x) &&
        !matched realPI faults.fault1Pattern x) := by
  have apart {first second : Text} (different : first ≠ second) :
      io.output po ++ first ≠ io.output po ++ second :=
    fun same => different (List.append_cancel_left same)
  have output : outputName io.names n po = io.output po := by
    have place : n + po.val < io.names.length := by rw [io.size]; omega
    exact (List.getElem_eq_getD (h := place) []).symm
  have gates (status : Bool × Bool) : outputGates (wireName io.names n m) (io.output po) po status =
      blockGates io.names n po status := by
    rw [← output]
    exact outputGates_eq io.names n po.isLt status
  have mainNet : netValues io po realPI faults main x (io.output po ++ lit "_main") = main :=
    if_pos rfl
  have raised : netValues io po realPI faults main x (io.output po ++ lit "_wrong1") =
      matched realPI faults.fault0Pattern x := by
    rw [netValues, if_neg (apart (by decide)), if_pos rfl, value_fault0]
  have lowered (nonempty : faults.fault1Pattern ≠ []) :
      netValues io po realPI faults main x (io.output po ++ lit "_wrong0") =
        !matched realPI faults.fault1Pattern x := by
    rw [netValues, if_neg (apart (by decide)), if_neg (apart (by decide)), if_pos rfl,
      value_fault1 io po realPI _ x nonempty]
  rw [repaired, gates]
  cases zero : faults.fault0Pattern with
  | nil =>
      cases one : faults.fault1Pattern with
      | nil => simp [blockGates, Gate.output, Gate.eval, output, mainNet, matched]
      | cons y rest =>
          have low := lowered (by rw [one]; simp)
          rw [one] at low
          simp [blockGates, Gate.output, Gate.eval, output, mainNet, low]
          simp [matched]
  | cons y rest =>
      rw [zero] at raised
      cases one : faults.fault1Pattern with
      | nil =>
          simp [blockGates, Gate.output, Gate.eval, output, mainNet, raised]
          simp [matched]
      | cons z others =>
          have low := lowered (by rw [one]; simp)
          rw [one] at low
          have wire : io.output po ++ lit "_wrong0" ≠ io.output po ++ lit "_tks_new_wire" :=
            apart (by decide)
          simp [blockGates, Gate.output, Gate.eval, output, mainNet, raised, low,
            Function.update_of_ne wire]

theorem matched_eq_true {realPI : List (Fin n)} {patterns : List (Fin n → Bool)}
    {x : Fin n → Bool} :
    matched realPI patterns x = true ↔ ∃ y ∈ patterns, ∀ j ∈ realPI, x j = y j := by
  simp [matched]

/-- The repaired output with the faults that the comparison of the two answers finds. -/
def repairedRun (iogen : Iogen io) (simulator : Ncverilog io) (po : Fin m) (realPI : List (Fin n))
    (patterns : List (Fin n → Bool)) (x : Fin n → Bool) : Bool :=
  let file := fixInPat io.names patterns
  repaired io po realPI (compare m po patterns (simulator.run file) (iogen.run file))
    (simulator.circuit x po) x

section Exact

variable (iogen : Iogen io) (simulator : Ncverilog io) {po : Fin m} {realPI : List (Fin n)}
  (depends : ∀ x y, (∀ j ∈ realPI, x j = y j) → iogen.golden x po = iogen.golden y po)
  (patterns : List (Fin n → Bool))

/-- The faulty patterns at which the golden output has one value. -/
def faulty (po : Fin m) (value : Bool) : List (Fin n → Bool) :=
  patterns.filter fun y => iogen.golden y po = value ∧ simulator.circuit y po = !value

/-- The output is raised on one list of faulty patterns and lowered on the other. -/
theorem repairedRun_eq (x : Fin n → Bool) :
    repairedRun iogen simulator po realPI patterns x =
      ((simulator.circuit x po || matched realPI (faulty iogen simulator patterns po true) x) &&
        !matched realPI (faulty iogen simulator patterns po false) x) := by
  change repaired io po realPI (compare m po patterns _ _) _ x = _
  rw [compare_run, repaired_eq]
  rfl

include depends in
/-- A vector that matches a faulty pattern has the golden value of that pattern. -/
theorem golden_of_matched {value : Bool} {x : Fin n → Bool}
    (hit : matched realPI (faulty iogen simulator patterns po value) x = true) :
    iogen.golden x po = value := by
  obtain ⟨y, listed, agree⟩ := matched_eq_true.mp hit
  have values := of_decide_eq_true (List.mem_filter.mp listed).2
  rw [depends x y agree, values.1]

/-- A tested vector with a wrong output is on the list of its golden value. -/
theorem matched_of_faulty {value : Bool} {x : Fin n → Bool} (tested : x ∈ patterns)
    (golden : iogen.golden x po = value) (wrong : simulator.circuit x po = !value) :
    matched realPI (faulty iogen simulator patterns po value) x = true :=
  matched_eq_true.mpr ⟨x, List.mem_filter.mpr ⟨tested, decide_eq_true ⟨golden, wrong⟩⟩,
    fun _ _ => rfl⟩

include depends in
/-- No vector is moved away from its golden value. -/
theorem repairedRun_correct {x : Fin n → Bool}
    (correct : simulator.circuit x po = iogen.golden x po) :
    repairedRun iogen simulator po realPI patterns x = iogen.golden x po := by
  have moved (value : Bool) (different : iogen.golden x po ≠ value) :
      matched realPI (faulty iogen simulator patterns po value) x = false :=
    Bool.eq_false_iff.mpr fun hit => different (golden_of_matched iogen simulator depends _ hit)
  rw [repairedRun_eq, correct]
  cases value : iogen.golden x po with
  | false => simp [moved true (by rw [value]; decide)]
  | true => simp [moved false (by rw [value]; decide)]

include depends in
/-- A wrong output on a tested vector is corrected. -/
theorem repairedRun_tested {x : Fin n → Bool} (tested : x ∈ patterns) :
    repairedRun iogen simulator po realPI patterns x = iogen.golden x po := by
  by_cases correct : simulator.circuit x po = iogen.golden x po
  · exact repairedRun_correct iogen simulator depends patterns correct
  · have wrong : simulator.circuit x po = !iogen.golden x po := Bool.eq_not_of_ne correct
    have hit : matched realPI (faulty iogen simulator patterns po (iogen.golden x po)) x = true :=
      matched_of_faulty iogen simulator patterns tested rfl wrong
    rw [repairedRun_eq]
    cases value : iogen.golden x po with
    | false =>
        rw [value] at hit
        simp [hit]
    | true =>
        have missed : matched realPI (faulty iogen simulator patterns po false) x = false :=
          Bool.eq_false_iff.mpr fun other =>
            absurd (golden_of_matched iogen simulator depends patterns other) (by simp [value])
        rw [value] at hit
        simp [hit, missed]

/-- An output far from all faulty patterns is left alone. -/
theorem repairedRun_untouched {x : Fin n → Bool}
    (apart : ∀ y ∈ patterns, simulator.circuit y po ≠ iogen.golden y po → ∃ j ∈ realPI, x j ≠ y j) :
    repairedRun iogen simulator po realPI patterns x = simulator.circuit x po := by
  have missed (value : Bool) :
      matched realPI (faulty iogen simulator patterns po value) x = false := by
    rw [Bool.eq_false_iff]
    intro hit
    obtain ⟨y, listed, agree⟩ := matched_eq_true.mp hit
    obtain ⟨tested, values⟩ := List.mem_filter.mp listed
    obtain ⟨golden, wrong⟩ := of_decide_eq_true values
    obtain ⟨j, real, different⟩ := apart y tested (by rw [golden, wrong]; simp)
    exact different (agree j real)
  rw [repairedRun_eq, missed true, missed false]
  simp

end Exact

/-- The repaired output equals the golden one on every tested pattern and wherever the main circuit
was right, and it equals the main output wherever no faulty tested pattern matches. -/
theorem repair_exact (iogen : Iogen io) (simulator : Ncverilog io) (po : Fin m)
    (realPI : List (Fin n))
    (depends : ∀ x y, (∀ j ∈ realPI, x j = y j) → iogen.golden x po = iogen.golden y po)
    (patterns : List (Fin n → Bool)) :
    (∀ x ∈ patterns,
        repairedRun iogen simulator po realPI patterns x = iogen.golden x po) ∧
      (∀ x, simulator.circuit x po = iogen.golden x po →
        repairedRun iogen simulator po realPI patterns x = iogen.golden x po) ∧
      ∀ x, (∀ y ∈ patterns, simulator.circuit y po ≠ iogen.golden y po → ∃ j ∈ realPI, x j ≠ y j) →
        repairedRun iogen simulator po realPI patterns x = simulator.circuit x po :=
  ⟨fun _ tested => repairedRun_tested iogen simulator depends patterns tested,
    fun _ correct => repairedRun_correct iogen simulator depends patterns correct,
    fun _ apart => repairedRun_untouched iogen simulator patterns apart⟩

/-- The conjunction is repaired to its first operand. -/
theorem repair_exact_sample :
    (∀ x ∈ [![true, false]],
        repairedRun (referenceIogen sampleNames fun x _ => x 0)
          (referenceNcverilog sampleNames fun x _ => x 0 && x 1) 0 [0] [![true, false]] x = x 0) ∧
      (∀ x : Fin 2 → Bool, (x 0 && x 1) = x 0 →
        repairedRun (referenceIogen sampleNames fun x _ => x 0)
          (referenceNcverilog sampleNames fun x _ => x 0 && x 1) 0 [0] [![true, false]] x = x 0) ∧
      ∀ x : Fin 2 → Bool, (∀ y ∈ [![true, false]], (y 0 && y 1) ≠ y 0 → ∃ j ∈ [(0 : Fin 2)],
          x j ≠ y j) →
        repairedRun (referenceIogen sampleNames fun x _ => x 0)
          (referenceNcverilog sampleNames fun x _ => x 0 && x 1) 0 [0] [![true, false]] x =
            (x 0 && x 1) :=
  repair_exact (referenceIogen sampleNames fun x _ => x 0)
    (referenceNcverilog sampleNames fun x _ => x 0 && x 1) 0 [0]
    (fun _ _ agree => agree 0 (by simp)) [![true, false]]

end LogicRegression.FixNetwork
