import LogicRegression.Construction.ClassifyOutput
import LogicRegression.Proof.CreatePattern.Closure

namespace LogicRegression.ClassifyOutput

open Text FixNetwork

variable {n : ℕ} {rand : ℕ → ℕ} {patternNum : ℕ}

/-- A loop that ends has collected different rows, as many as were asked for. -/
theorem sampleLoop_distinct {fuel count later : ℕ} {rows final : List (Fin n → Bool)}
    (distinct : rows.Nodup) (room : rows.length ≤ patternNum)
    (returned : sampleLoop rand patternNum fuel count rows = some (final, later)) :
    final.Nodup ∧ final.length = patternNum := by
  induction fuel generalizing count rows with
  | zero => cases returned
  | succ fuel ih =>
      rw [sampleLoop] at returned
      split at returned
      · next short =>
          dsimp only at returned
          split at returned
          · exact ih distinct room returned
          · next fresh =>
              have new : sampleRow rand count ∉ rows := fun listed =>
                fresh (List.mem_map_of_mem listed)
              apply ih _ _ returned
              · rw [List.nodup_append]
                refine ⟨distinct, List.nodup_singleton _, fun x listed y last same => ?_⟩
                rw [List.mem_singleton.mp last] at same
                exact new (same ▸ listed)
              · rw [List.length_append, List.length_singleton]
                exact short
      · next long =>
          cases returned
          exact ⟨distinct, Nat.le_antisymm room (Nat.le_of_not_lt long)⟩

/-- With more room the loop has the same result. -/
theorem sampleLoop_mono {fuel more count : ℕ} (grown : fuel ≤ more) {rows : List (Fin n → Bool)}
    {result : List (Fin n → Bool) × ℕ}
    (returned : sampleLoop rand patternNum fuel count rows = some result) :
    sampleLoop rand patternNum more count rows = some result := by
  induction fuel generalizing more count rows with
  | zero => cases returned
  | succ fuel ih =>
      obtain ⟨more, rfl⟩ := Nat.exists_eq_succ_of_ne_zero (Nat.ne_of_gt (Nat.zero_lt_of_lt grown))
      rw [sampleLoop] at returned ⊢
      by_cases short : rows.length < patternNum
      · rw [if_pos short] at returned ⊢
        exact ih (Nat.le_of_succ_le_succ grown) returned
      · rwa [if_neg short] at returned ⊢

/-- The loop ends only when there are enough vectors. -/
theorem patternNum_le_of_returned {fuel count later : ℕ} {final : List (Fin n → Bool)}
    (returned : sampleLoop rand patternNum fuel count [] = some (final, later)) :
    patternNum ≤ 2 ^ n := by
  obtain ⟨distinct, size⟩ := sampleLoop_distinct List.nodup_nil (Nat.zero_le _) returned
  have bound := distinct.length_le_card
  rw [size, Fintype.card_fun, Fintype.card_bool, Fintype.card_fin] at bound
  exact bound

/-- Without inputs the loop never ends. -/
theorem positive_of_returned {fuel count later : ℕ} {final : List (Fin n → Bool)}
    (returned : sampleLoop rand patternNums fuel count [] = some (final, later)) : 0 < n := by
  have bound := patternNum_le_of_returned returned
  by_contra none
  rw [Nat.eq_zero_of_not_pos none] at bound
  exact absurd bound (by decide)

/-- The rows that the first draws give. -/
def firstRows (rand : ℕ → ℕ) (n count : ℕ) : List (Fin n → Bool) :=
  (List.range count).map fun k => sampleRow rand (k * n)

/-- When the first draws are different the loop takes them all. -/
theorem sampleLoop_first (distinct : (firstRows rand n patternNum).Nodup) {taken : ℕ}
    (room : taken ≤ patternNum) :
    sampleLoop rand patternNum (patternNum - taken + 1) (taken * n) (firstRows rand n taken) =
      some (firstRows rand n patternNum, patternNum * n) := by
  induction left : patternNum - taken generalizing taken with
  | zero =>
      have all : taken = patternNum := by omega
      subst all
      rw [sampleLoop, if_neg (by simp [firstRows])]
  | succ left ih =>
      have short : taken < patternNum := by omega
      have grown : firstRows rand n (taken + 1) =
          firstRows rand n taken ++ [sampleRow rand (taken * n)] := by
        rw [firstRows, List.range_succ, List.map_append, List.map_singleton]
        rfl
      have later := ih (show taken + 1 ≤ patternNum from short) (by omega)
      have fresh : toStr (sampleRow rand (taken * n) : Fin n → Bool) ∉
          (firstRows rand n taken).map toStr := by
        intro listed
        obtain ⟨x, inside, same⟩ := List.mem_map.mp listed
        have different : (firstRows rand n (taken + 1)).Nodup :=
          distinct.sublist ((List.range_sublist.mpr short).map _)
        rw [grown, List.nodup_append] at different
        exact different.2.2 x inside _ (List.mem_singleton_self _) (toStr_injective same)
      rw [sampleLoop, if_pos (by simpa [firstRows] using short)]
      dsimp only
      rw [if_neg fresh, ← grown, ← Nat.succ_mul]
      exact later

end LogicRegression.ClassifyOutput
