import LogicRegression.Proof.ClassifyOutput.Sampling

namespace LogicRegression.ClassifyOutput

open Text FixNetwork

variable {n : ℕ} {rand : ℕ → ℕ} {count : ℕ} {rows : List (Fin n → Bool)}

/-- The rows of which the keys are known when the loop is about to draw the next one. -/
inductive Sampled (rand : ℕ → ℕ) : ℕ → List (Fin n → Bool) → Prop
  | start : Sampled rand 0 []
  | draw {count : ℕ} {rows : List (Fin n → Bool)} : Sampled rand count rows →
      rows.length < patternNums → Sampled rand (count + n)
        (if toStr (sampleRow rand count : Fin n → Bool) ∈ rows.map toStr then rows
          else rows ++ [sampleRow rand count])

theorem fresh_iff {x : Fin n → Bool} : toStr x ∉ rows.map toStr ↔ x ∉ rows := by
  rw [List.mem_map_of_injective toStr_injective]

/-- A loop that ends goes through reached rows. -/
theorem sampleLoop_sampled (reached : Sampled rand count rows) {fuel used : ℕ}
    {final : List (Fin n → Bool)}
    (returned : sampleLoop rand patternNums fuel count rows = some (final, used)) :
    Sampled rand used final := by
  induction fuel generalizing count rows with
  | zero => cases returned
  | succ fuel ih =>
      rw [sampleLoop] at returned
      split at returned
      · next short => exact ih (reached.draw short) returned
      · cases returned
        exact reached

/-- A new row keeps the rows different. -/
theorem nodup_fresh {x : Fin n → Bool} (distinct : rows.Nodup) (fresh : x ∉ rows) :
    (rows ++ [x]).Nodup := by
  rw [← List.concat_eq_append]
  exact distinct.concat fresh

/-- The known rows are different. -/
theorem Sampled.nodup (reached : Sampled rand count rows) : rows.Nodup := by
  induction reached with
  | start => exact List.nodup_nil
  | draw _ _ distinct =>
      split
      · exact distinct
      · next fresh => exact nodup_fresh distinct (fresh_iff.mp fresh)

/-- With fewer rows than vectors some vector is new. -/
theorem exists_fresh (short : rows.length < 2 ^ n) : ∃ x, x ∉ rows := by
  by_contra all
  push Not at all
  have covered : (Finset.univ : Finset (Fin n → Bool)) ⊆ rows.toFinset := fun x _ =>
    List.mem_toFinset.mpr (all x)
  have bound := (Finset.card_le_card covered).trans (List.toFinset_card_le rows)
  rw [Finset.card_univ, Fintype.card_fun, Fintype.card_bool, Fintype.card_fin] at bound
  omega

/-- Random values that draw a vector next. -/
def drawNext (rand : ℕ → ℕ) (count : ℕ) (x : Fin n → Bool) : ℕ → ℕ := fun k =>
  if inside : count ≤ k ∧ k < count + n then (x ⟨k - count, by omega⟩).toNat else rand k

theorem sampleRow_drawNext {later : ℕ → ℕ} {x : Fin n → Bool}
    (same : ∀ k < count + n, later k = drawNext rand count x k) : sampleRow later count = x := by
  funext j
  have inside : count ≤ count + j.val ∧ count + j.val < count + n := by omega
  have place : count + j.val - count = j.val := by omega
  rw [sampleRow, same _ inside.2, drawNext, dif_pos inside]
  cases value : x j <;> simp [place, value, plainBit]

/-- The loop can end from any rows: the next values may draw new vectors only. -/
theorem sampleLoop_can_end (rand : ℕ → ℕ) (count : ℕ) (enough : patternNums ≤ 2 ^ n) (distinct : rows.Nodup)
    (room : rows.length ≤ patternNums) :
    ∃ later fuel final used, (∀ k < count, later k = rand k) ∧
      sampleLoop later patternNums fuel count rows = some (final, used) ∧ final.Nodup ∧
      final.length = patternNums := by
  induction left : patternNums - rows.length generalizing rand count rows with
  | zero =>
      have full : rows.length = patternNums := by omega
      exact ⟨rand, 1, rows, count, fun _ _ => rfl, by rw [sampleLoop, if_neg full.not_lt], distinct,
        full⟩
  | succ left ih =>
      have short : rows.length < patternNums := by omega
      obtain ⟨x, fresh⟩ := exists_fresh (short.trans_le enough)
      have longer := nodup_fresh distinct fresh
      obtain ⟨later, fuel, final, used, same, returned, result⟩ :=
        ih (drawNext rand count x) (count + n) longer (by simpa using short)
          (by simp; omega)
      have drawn := sampleRow_drawNext same
      refine ⟨later, fuel + 1, final, used, fun k before => ?_, ?_, result⟩
      · rw [same k (by omega), drawNext, dif_neg (by omega)]
      · rw [sampleLoop, if_pos short]
        dsimp only
        rw [drawn, if_neg (fresh_iff.mpr fresh)]
        exact returned

/-- The sampler can make progress in every reached state exactly with enough vectors. -/
theorem sampler_progress_iff (n : ℕ) :
    (∀ (rand : ℕ → ℕ) (count : ℕ) (rows : List (Fin n → Bool)), Sampled rand count rows →
      rows.length < patternNums →
        (∃ x : Fin n → Bool, toStr x ∉ rows.map toStr) ∧
          ∃ later fuel final used, (∀ k < count, later k = rand k) ∧
            sampleLoop later patternNums fuel count rows = some (final, used) ∧ final.Nodup ∧
            final.length = patternNums) ↔
      patternNums ≤ 2 ^ n := by
  constructor
  · intro progress
    obtain ⟨-, later, fuel, final, used, -, returned, -⟩ :=
      progress (fun _ => 0) 0 [] .start (show 0 < patternNums by decide)
    exact patternNum_le_of_returned returned
  · intro enough rand count rows reached short
    obtain ⟨x, fresh⟩ := exists_fresh (short.trans_le enough)
    exact ⟨⟨x, fresh_iff.mpr fresh⟩, sampleLoop_can_end rand count enough reached.nodup short.le⟩

/-- Random values that give the bits of each number in turn. -/
def counting (n : ℕ) : ℕ → ℕ := fun t => ((t / n).testBit (t % n)).toNat

theorem sampleRow_counting {k : ℕ} (j : Fin n) :
    sampleRow (counting n) (k * n) j = k.testBit j := by
  have positive : 0 < n := j.pos
  have number : (k * n + j.val) / n = k := by
    rw [Nat.mul_comm, Nat.mul_add_div positive, Nat.div_eq_of_lt j.isLt, Nat.add_zero]
  have place : (k * n + j.val) % n = j.val := by
    rw [Nat.mul_comm, Nat.mul_add_mod, Nat.mod_eq_of_lt j.isLt]
  rw [sampleRow, counting, number, place]
  cases k.testBit j.val <;> rfl

/-- The first draws of the counting values are different. -/
theorem firstRows_counting_nodup (n : ℕ) : (firstRows (counting n) n (2 ^ n)).Nodup := by
  rw [firstRows, List.nodup_map_iff_inj_on List.nodup_range]
  intro k small l low same
  apply Nat.eq_of_testBit_eq
  intro i
  by_cases inside : i < n
  · have bit := congrFun same ⟨i, inside⟩
    rwa [sampleRow_counting, sampleRow_counting] at bit
  · have high : 2 ^ n ≤ 2 ^ i := Nat.pow_le_pow_right (by decide) (Nat.le_of_not_lt inside)
    rw [Nat.testBit_lt_two_pow ((List.mem_range.mp small).trans_le high),
      Nat.testBit_lt_two_pow ((List.mem_range.mp low).trans_le high)]

/-- All vectors can be known before the target is met. -/
theorem sampled_all (few : 2 ^ n < patternNums) {taken : ℕ} (room : taken ≤ 2 ^ n) :
    Sampled (counting n) (taken * n) (firstRows (counting n) n taken) := by
  induction taken with
  | zero => simpa [firstRows] using Sampled.start
  | succ taken ih =>
      have grown : firstRows (counting n) n (taken + 1) =
          firstRows (counting n) n taken ++ [sampleRow (counting n) (taken * n)] := by
        rw [firstRows, List.range_succ, List.map_append, List.map_singleton]
        rfl
      have different : (firstRows (counting n) n (taken + 1)).Nodup :=
        (firstRows_counting_nodup n).sublist ((List.range_sublist.mpr room).map _)
      have fresh : (sampleRow (counting n) (taken * n) : Fin n → Bool) ∉
          firstRows (counting n) n taken := by
        rw [grown, List.nodup_append] at different
        exact fun listed => different.2.2 _ listed _ (List.mem_singleton_self _) rfl
      have next := (ih (Nat.le_of_succ_le room)).draw (by simp [firstRows]; omega)
      rw [if_neg (fresh_iff.mpr fresh), ← grown, ← Nat.succ_mul] at next
      exact next

/-- With six inputs the sampler can know all vectors long before the target. -/
theorem sampler_stuck_six :
    ¬ ∀ (rand : ℕ → ℕ) (count : ℕ) (rows : List (Fin 6 → Bool)), Sampled rand count rows →
      rows.length < patternNums → ∃ x : Fin 6 → Bool, toStr x ∉ rows.map toStr := by
  intro progress
  have reached := sampled_all (n := 6) (by decide) le_rfl
  obtain ⟨x, fresh⟩ := progress _ _ _ reached (by simp [firstRows, patternNums])
  have longer := (List.nodup_cons.mpr ⟨fresh_iff.mp fresh, reached.nodup⟩).length_le_card
  simp [firstRows] at longer

end LogicRegression.ClassifyOutput
