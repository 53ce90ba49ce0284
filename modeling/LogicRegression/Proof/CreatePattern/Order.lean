import LogicRegression.Proof.CreatePattern.Enumeration

namespace LogicRegression.FixNetwork

open FixedWeight

variable {n k : ℕ}

/-- At the first turn a chosen position is followed by one that is not chosen. -/
theorem firstTurn_get {i p : ℕ} {index : List Bool} (found : firstTurn i index = some p) :
    index[p - i]? = some true ∧ index[p - i + 1]? = some false := by
  induction i, index using firstTurn.induct with
  | case1 i rest =>
      obtain rfl : i = p := by simpa [firstTurn] using found
      simp
  | case2 i b rest noTurn ih =>
      rw [firstTurn.eq_2 i b rest noTurn] at found
      have place : p - i = p - (i + 1) + 1 := by
        have bounds := firstTurn_lt found
        omega
      rw [place, List.getElem?_cons_succ, List.getElem?_cons_succ]
      exact ih found
  | case3 i => simp [firstTurn] at found

/-- A pass of the loop finds a turn and moves to the next vector of the order. -/
structure Pass (n k : ℕ) (index : List Bool) : Prop where
  turn : ∃ i, i + 1 < n ∧ index[i]? = some true ∧ index[i + 1]? = some false
  moves : ∃ next, nextIndex index = some next ∧ ColexNext n k index next

/-- While the loop is not done there is a next vector, and the pass finds it. -/
theorem pass_of_not_done {index : List Bool} (size : index.length = n) (ones : index.count true = k)
    (running : hasDone index n k = false) : Pass n k index := by
  have listed : index ∈ colex n k := mem_colex.mpr ⟨size, ones⟩
  have fits : k ≤ n := by
    rw [← size, ← ones]
    exact List.count_le_length
  obtain ⟨before, later, split⟩ := List.append_of_mem listed
  cases later with
  | nil =>
      have last : index = List.replicate (n - k) false ++ List.replicate k true := by
        have final := colex_getLast? fits
        rw [split, List.getLast?_concat] at final
        exact Option.some.inj final
      rw [(hasDone_iff listed).mpr last] at running
      cases running
  | cons next later =>
      have stepped : nextIndex index = some next := by
        have chain := nextIndex_colex n k
        rw [split] at chain
        exact (List.isChain_append_cons_cons.mp chain).2.1
      refine ⟨?_, next, stepped, colexNext_of_split split⟩
      obtain ⟨i, found, -⟩ := Option.map_eq_some_iff.mp stepped
      have bounds := (firstTurn_lt found).2
      have bits := firstTurn_get found
      exact ⟨i, by omega, bits.1, bits.2⟩

/-- A call of `Comb` ends. It hands different vectors with the given number of ones to `printRes`,
each one followed by the next one of the order, from the lowest one on until the limit; and at
each vector that is not the last one a pass of its loop moves to the next vector. -/
theorem comb_enumerates (fits : k ≤ n) (patternUpLimit : ℤ) :
    ∃ enough, ∀ fuel ≥ enough, ∃ indices,
      combIndices fuel n k patternUpLimit = some indices ∧
      indices.Nodup ∧
      (∀ index ∈ indices, index.length = n ∧ index.count true = k) ∧
      indices.head? = some (List.replicate k true ++ List.replicate (n - k) false) ∧
      indices.IsChain (ColexNext n k) ∧
      indices.length = min (n.choose k) (max 1 ((patternUpLimit + 1) / 2).toNat) ∧
      ∀ index : List Bool, index.length = n → index.count true = k →
        hasDone index n k = false → Pass n k index := by
  refine ⟨n.choose k, fun fuel enough => ⟨_, combIndices_eq patternUpLimit fits enough, ?_⟩⟩
  let indices := (colex n k).take (room patternUpLimit 2 + 1)
  have prefixed : indices <+: colex n k := List.take_prefix _ _
  have first : indices.head? = some (List.replicate k true ++ List.replicate (n - k) false) := by
    rw [← colex_head? fits, List.head?_take]
    rfl
  exact ⟨(colex_nodup n k).sublist prefixed.sublist,
    fun index inside => mem_colex.mp (prefixed.subset inside), first,
    (colex_isChain_next n k).take _, length_printed patternUpLimit,
    fun index => pass_of_not_done⟩

/-- With a limit of seven, four of the six pairs of four positions are printed. -/
theorem comb_enumerates_sample :
    ∃ enough, ∀ fuel ≥ enough, ∃ indices, combIndices fuel 4 2 7 = some indices ∧
      indices.head? = some [true, true, false, false] ∧ indices.length = 4 := by
  obtain ⟨enough, runs⟩ := comb_enumerates (show 2 ≤ 4 by decide) 7
  refine ⟨enough, fun fuel bound => ?_⟩
  obtain ⟨indices, returned, -, -, first, -, size, -⟩ := runs fuel bound
  exact ⟨indices, returned, first, size⟩

end LogicRegression.FixNetwork
