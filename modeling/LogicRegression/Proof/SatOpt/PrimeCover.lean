import Mathlib.Data.List.Sort
import LogicRegression.Proof.SatOpt.Minimize

namespace LogicRegression.SatOpt

open Binary LogicRegression.Cube

/-- The characters of the keys. -/
def IsBitChar (c : Char) : Prop := c = '0' ∨ c = '1'

theorem isBitChar_choice (a : Char) : ∃ b, IsBitChar b ∧ b ≠ a := by
  by_cases zero : a = '0'
  · exact ⟨'1', .inr rfl, by rw [zero]; decide⟩
  · exact ⟨'0', .inl rfl, Ne.symm zero⟩

/-- This sort keeps ties in their order; it is one instance of the library sort. -/
def stableSort : StdSort where
  run := List.insertionSort fun i j => j.2 ≤ i.2
  perm := List.perm_insertionSort _
  sorted items := by
    have sorted := List.pairwise_insertionSort (fun i j : ℕ × ℤ => j.2 ≤ i.2) items
    apply sorted.imp
    intro i j le
    simpa [sortFunc] using le

variable {n : ℕ} {patterns : Table} {inputOrder : InputOrder}

/-- Two grown cubes are incomparable when the earlier one misses the later seed. -/
theorem IsGrown.incomparable {first second : Text × Text} (table : IsTable n patterns)
    (earlier : IsGrown n patterns first.1 first.2) (later : IsGrown n patterns second.1 second.2)
    (fresh : ¬ Covers '-' first.2 second.1) :
    ¬ Contains '-' IsBitChar first.2 second.2 ∧ ¬ Contains '-' IsBitChar second.2 first.2 :=
  Cube.incomparable isBitChar_choice (earlier.size.trans later.size.symm) earlier.values
    earlier.prime later.avoids (table.bits _ later.onset) later.covers fresh

/-- The cubes are grown from on-set rows, avoid the off-set, are prime and are irredundant.
The table lists its entries in the iteration order of the map. -/
theorem resultPatterns_prime_irredundant (sorts : ℕ → StdSort) (positive : 1 ≤ n) (short : n ≤ 29)
    (table : IsTable n patterns) (order : IsOrder n inputOrder) :
    ∃ grown : List (Text × Text),
      resultPatterns sorts n patterns inputOrder = grown.map (fun pair => pair.2 ++ ['1']) ∧
      (∀ i pair, grown[i]? = some pair → OnSet patterns pair.1 ∧
        ∃ before, before.Perm inputOrder ∧
          (growPattern halfSpace (sorts i) n patterns before pair.1).1 = pair.2 ++ ['1']) ∧
      (∀ pair ∈ grown, Covers '-' pair.2 pair.1 ∧
        ∀ row, OffSet patterns row → ¬ Covers '-' pair.2 row) ∧
      (∀ pair ∈ grown, ∀ i c, pair.2[i]? = some c → c ≠ '-' →
        ∃ row, OffSet patterns row ∧ Covers '-' (pair.2.set i '-') row) ∧
      grown.Pairwise (fun earlier later => ¬ Covers '-' earlier.2 later.1) ∧
      grown.Pairwise fun first second => ¬ Contains '-' IsBitChar first.2 second.2 ∧
        ¬ Contains '-' IsBitChar second.2 first.2 := by
  obtain ⟨grown, traversed⟩ := minimize_traversed sorts (by omega) short table order
    soundSkip_halfSpace
  refine ⟨grown, traversed.results, fun i pair present => ⟨?_, traversed.source i pair present⟩,
    fun pair inside => ⟨(traversed.good pair inside).covers, (traversed.good pair inside).avoids⟩,
    fun pair inside => (traversed.good pair inside).prime, traversed.fresh, ?_⟩
  · exact (traversed.good pair (List.mem_of_getElem? present)).onset
  · apply traversed.fresh.imp_of_mem
    intro first second inFirst inSecond fresh
    exact (traversed.good first inFirst).incomparable table (traversed.good second inSecond) fresh

/-- The table of three rows over two inputs, with one row missing. -/
def sampleTable : Table := [(['1', '1'], ['1']), (['1', '0'], ['1']), (['0', '0'], ['0'])]

theorem sampleTable_isTable : IsTable 2 sampleTable :=
  ⟨by decide, by decide, by decide, by decide⟩

def sampleOrder : InputOrder := [(1, -2), (0, 3)]

theorem sampleOrder_isOrder : IsOrder 2 sampleOrder := by
  unfold IsOrder
  decide

theorem resultPatterns_prime_irredundant_sample :
    ∃ grown : List (Text × Text),
      resultPatterns (fun _ => stableSort) 2 sampleTable sampleOrder =
        grown.map (fun pair => pair.2 ++ ['1']) ∧
      ∀ pair ∈ grown, Covers '-' pair.2 pair.1 := by
  obtain ⟨grown, results, -, covers, -⟩ := resultPatterns_prime_irredundant (fun _ => stableSort)
    (by decide) (by decide) sampleTable_isTable sampleOrder_isOrder
  exact ⟨grown, results, fun pair inside => (covers pair inside).1⟩

example : resultPatterns (fun _ => stableSort) 2 sampleTable sampleOrder = [['1', '-', '1']] := by
  decide

/-- The half-space shortcut grows the same sequence of cubes as the full lookup. -/
theorem resultPatterns_halfSpace_exact (sorts : ℕ → StdSort) (positive : 1 ≤ n) (short : n ≤ 29)
    (table : IsTable n patterns) (order : IsOrder n inputOrder) :
    resultPatterns sorts n patterns inputOrder =
      (minimize noSkip sorts n patterns inputOrder).resultPatterns := by
  let ordered (progress : Progress) : Prop := IsOrder n progress.inputOrder
  have nonzero : n ≠ 0 := by omega
  have start : ordered ⟨inputOrder, []⟩ := order
  apply congrArg Progress.resultPatterns
  apply Fold.foldl_congr start
  · intro progress pattern listed current
    unfold minimizeStep
    split
    · next one =>
        have on : OnSet patterns pattern.1 := by rw [OnSet, ← one]; exact listed
        split
        · exact current
        · exact current.perm (growPattern_perm _ nonzero table current on halfSpace)
    · exact current
  · intro progress pattern listed current
    unfold minimizeStep
    split
    · next one =>
        have on : OnSet patterns pattern.1 := by rw [OnSet, ← one]; exact listed
        rw [growPattern_congr _ nonzero short table current on soundSkip_halfSpace
          soundSkip_noSkip]
    · rfl

theorem resultPatterns_halfSpace_exact_sample :
    resultPatterns (fun _ => stableSort) 2 sampleTable sampleOrder =
      (minimize noSkip (fun _ => stableSort) 2 sampleTable sampleOrder).resultPatterns :=
  resultPatterns_halfSpace_exact (fun _ => stableSort) (by decide) (by decide)
    sampleTable_isTable sampleOrder_isOrder

end LogicRegression.SatOpt
