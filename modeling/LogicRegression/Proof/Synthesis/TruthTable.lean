import LogicRegression.Library.Blif
import LogicRegression.Proof.Iogen.Reference
import LogicRegression.Proof.Pattern.Generation
import LogicRegression.Proof.SatOpt.PrimeCover
import LogicRegression.Proof.SatOpt.Reading
import LogicRegression.Proof.WriteBlif.Copy

namespace LogicRegression.Synthesis

open Text Binary SatOpt Pattern WriteBlif

/-- The vector `PI_state` in which exactly the real inputs are not dummy. -/
def piStateOf {n : ℕ} (real : Finset (Fin n)) : Fin n → Bool := fun j => decide (j ∉ real)

theorem count_piStateOf {n : ℕ} (real : Finset (Fin n)) :
    (List.ofFn (piStateOf real)).count false = real.card := by
  rw [List.ofFn_eq_map, List.count, List.countP_map]
  have same : ((fun state => state == false) ∘ piStateOf real) = fun j => decide (j ∈ real) := by
    funext j
    by_cases inside : j ∈ real <;> simp [piStateOf, inside]
  rw [same, List.countP_eq_length_filter, ← List.toFinset_card_of_nodup
    ((List.nodup_finRange n).filter _)]
  congr 1
  ext j
  simp

/-- The real inputs in increasing order. -/
def realInputs {n : ℕ} (real : Finset (Fin n)) : List (Fin n) :=
  (List.finRange n).filter fun j => j ∈ real

theorem mem_realInputs {n : ℕ} {real : Finset (Fin n)} {j : Fin n} :
    j ∈ realInputs real ↔ j ∈ real := by simp [realInputs]

theorem realInputs_length {n : ℕ} (real : Finset (Fin n)) :
    (realInputs real).length = real.card := by
  rw [realInputs, ← List.toFinset_card_of_nodup ((List.nodup_finRange n).filter _)]
  congr 1
  ext j
  simp

theorem mem_dummyPI {n : ℕ} {real : Finset (Fin n)} {i : ℕ} :
    i ∈ dummyPI (List.ofFn (piStateOf real)) ↔ ∃ inside : i < n, (⟨i, inside⟩ : Fin n) ∉ real := by
  simp only [dummyPI, List.length_ofFn, List.mem_filter, List.mem_range, decide_eq_true_eq]
  constructor
  · intro ⟨inside, state⟩
    exact ⟨inside, by simpa [inside, piStateOf] using state⟩
  · intro ⟨inside, outside⟩
    exact ⟨inside, by simpa [inside, piStateOf] using outside⟩

/-- The columns that the reader keeps are those of the real inputs. -/
theorem keptInputs_dummyPI {n : ℕ} (real : Finset (Fin n)) :
    keptInputs n (dummyPI (List.ofFn (piStateOf real))) = (realInputs real).map Fin.val := by
  rw [keptInputs, ← List.map_coe_finRange_eq_range, List.filter_map, realInputs]
  congr 1
  apply List.filter_congr
  intro j _
  simp [mem_dummyPI]

theorem dummyPI_length {n : ℕ} (real : Finset (Fin n)) :
    n - (dummyPI (List.ofFn (piStateOf real))).length = real.card := by
  have split := List.length_eq_length_filter_add (l := List.range n)
    (fun i => decide (i ∈ dummyPI (List.ofFn (piStateOf real))))
  have dummies : (List.range n).filter
      (fun i => decide (i ∈ dummyPI (List.ofFn (piStateOf real)))) =
        dummyPI (List.ofFn (piStateOf real)) := by
    conv_rhs => rw [dummyPI, List.length_ofFn]
    apply List.filter_congr
    intro i inside
    rw [decide_eq_decide]
    simp [dummyPI, List.mem_range.mp inside]
  have reals : ((List.range n).filter
      (fun i => !decide (i ∈ dummyPI (List.ofFn (piStateOf real))))).length = real.card := by
    have kept := congrArg List.length (keptInputs_dummyPI real)
    rw [List.length_map, realInputs_length] at kept
    simpa [keptInputs] using kept
  rw [List.length_range, dummies, reals] at split
  omega

/-- The part of a vector that becomes a key of the map. -/
def keyOf {n : ℕ} (real : Finset (Fin n)) (x : Fin n → Bool) : Text :=
  (realInputs real).map fun j => bitChar (x j)

@[simp] theorem keyOf_length {n : ℕ} (real : Finset (Fin n)) (x : Fin n → Bool) :
    (keyOf real x).length = real.card := by simp [keyOf, realInputs_length]

theorem keyOf_isBits {n : ℕ} (real : Finset (Fin n)) (x : Fin n → Bool) :
    IsBits (keyOf real x) := by
  intro c inside
  obtain ⟨j, -, rfl⟩ := List.mem_map.mp inside
  exact bitChar_isBit _

theorem keyOf_eq_iff {n : ℕ} {real : Finset (Fin n)} {x y : Fin n → Bool} :
    keyOf real x = keyOf real y ↔ ∀ j ∈ real, x j = y j := by
  simp only [keyOf, List.map_inj_left, mem_realInputs, bitChar_inj]

/-- One row of the simulation file gives its key and its output bit. -/
theorem readRow_bitWords {n m : ℕ} (real : Finset (Fin n)) (x : Fin n → Bool) (y : Fin m → Bool)
    (po : Fin m) :
    readRow n po (dummyPI (List.ofFn (piStateOf real))) (bitWords x ++ bitWords y) =
      (keyOf real x, [bitChar (y po)]) := by
  have columns : keptInputs n (dummyPI (List.ofFn (piStateOf real))) = _ := keptInputs_dummyPI real
  rw [readRow]
  apply Prod.ext
  · change (keptInputs n _).flatMap _ = _
    rw [columns, List.flatMap_map, keyOf, List.map_eq_flatMap]
    apply List.flatMap_congr
    intro j _
    have cell := bitWords_get x j
    rw [List.getD_append _ _ _ _ (by simp [bitWords_length])]
    exact cell
  · have cell := bitWords_get y po
    dsimp only
    rw [List.getD_append_right _ _ _ _ (by simp [bitWords_length]), bitWords_length,
      Nat.add_sub_cancel_left]
    exact cell

end LogicRegression.Synthesis
