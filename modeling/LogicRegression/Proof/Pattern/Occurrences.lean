import Mathlib.Data.Int.CardIntervalMod
import LogicRegression.Proof.Pattern.Generation

namespace LogicRegression.Pattern

open Text Binary

/-- Two numbers give the same row exactly when they agree on the bits of the real inputs. -/
theorem rowChars_eq_iff {i k t : ℕ} {piState : List Bool} :
    rowChars i t piState = rowChars k t piState ↔
      ∀ s, t ≤ s → s < t + piState.count false → i.testBit s = k.testBit s := by
  induction piState generalizing t with
  | nil =>
      simp only [rowChars, List.count_nil, true_iff]
      intro s above below
      omega
  | cons state piState ih =>
      cases state with
      | true => simp [rowChars, ih]
      | false =>
          rw [rowChars, rowChars, List.cons.injEq, bitChar_inj, ih, List.count_cons_self]
          constructor
          · rintro ⟨first, later⟩ s above below
            rcases Nat.eq_or_lt_of_le above with rfl | past
            · exact first
            · exact later s past (by omega)
          · intro all
            exact ⟨all t le_rfl (by omega), fun s above below => all s (by omega) (by omega)⟩

/-- The rows repeat with the period of the real inputs. -/
theorem rowChars_eq_iff_mod {i k : ℕ} {piState : List Bool} :
    rowChars i 0 piState = rowChars k 0 piState ↔
      i ≡ k [MOD 2 ^ piState.count false] := by
  rw [rowChars_eq_iff, Nat.ModEq]
  constructor
  · intro same
    apply Nat.eq_of_testBit_eq
    intro s
    rw [Nat.testBit_mod_two_pow, Nat.testBit_mod_two_pow]
    by_cases inside : s < piState.count false
    · rw [same s (Nat.zero_le s) (by omega)]
    · simp [inside]
  · intro same s _ below
    have inside : s < piState.count false := by omega
    have bits := congrArg (Nat.testBit · s) same
    simpa [Nat.testBit_mod_two_pow, inside] using bits

/-- Each residue occurs equally often below a power. -/
theorem countP_range_mod {r u : ℕ} (fits : r ≤ u) (c : ℕ) :
    (List.range (2 ^ u)).countP (fun i => i ≡ c [MOD 2 ^ r]) = 2 ^ (u - r) := by
  have total (p : ℕ → Prop) [DecidablePred p] (count : ℕ) :
      (List.range count).countP (fun i => p i) = count.count p := by
    induction count with
    | zero => simp
    | succ count ih =>
        rw [List.range_succ, List.countP_append, ih, Nat.count_succ]
        simp [List.countP_singleton]
  have whole : 2 ^ u % 2 ^ r = 0 := Nat.mod_eq_zero_of_dvd (pow_dvd_pow 2 fits)
  rw [total, Nat.count_modEq_card _ (Nat.two_pow_pos r), whole, if_neg (Nat.not_lt_zero _),
    Nat.add_zero, Nat.pow_div fits (by decide)]

variable {n upLimit : ℕ} {piState : Fin n → Bool}

/-- Each vector with `1` at the dummy inputs occurs equally often. -/
theorem count_tableRows (fits : (List.ofFn piState).count false ≤ upLimit) {x : Fin n → Bool}
    (dummy : ∀ j, piState j = true → x j = true) :
    (tableRows piState upLimit).count x = 2 ^ (upLimit - (List.ofFn piState).count false) := by
  obtain ⟨c, -, rfl⟩ := List.mem_map.mp (mem_tableRows fits dummy)
  have same (i : ℕ) : (vectorOf (rowChars i 0 (List.ofFn piState)) : Fin n → Bool) =
      vectorOf (rowChars c 0 (List.ofFn piState)) ↔
        i ≡ c [MOD 2 ^ (List.ofFn piState).count false] := by
    rw [← rowChars_eq_iff_mod]
    constructor
    · intro vectors
      have left := ofFn_vectorOf (n := n) (by simp) (rowChars_isBits i 0 (List.ofFn piState))
      have right := ofFn_vectorOf (n := n) (by simp) (rowChars_isBits c 0 (List.ofFn piState))
      rw [← left, vectors, right]
    · exact fun rows => congrArg vectorOf rows
  rw [tableRows, List.count, List.countP_map, ← countP_range_mod fits c]
  apply List.countP_congr
  intro i _
  simp [same]

/-- The text has a header, the names and `2 ^ upLimit` rows, the string is never left, every row
has `1` at each dummy input, and every assignment of the real inputs occurs equally often. -/
theorem lastGeneration_complete (ioNames : List Text) (piState : Fin n → Bool)
    (small : upLimit < 30) (fits : (List.ofFn piState).count false ≤ upLimit) :
    ∃ rows : List (Fin n → Bool),
      lastGeneration ioNames n (List.ofFn piState) upLimit =
        some (spaced [decimal n, decimal (2 ^ upLimit)] ++ '\n' ::
          (nameLine (ioNames.take n) ++ rows.flatMap fun x => spaced (bitWords x) ++ ['\n'])) ∧
      rows.length = 2 ^ upLimit ∧
      (∀ i < 2 ^ upLimit, (generationRow upLimit (List.ofFn piState) i).isSome) ∧
      (∀ x ∈ rows, ∀ j, piState j = true → x j = true) ∧
      ∀ x : Fin n → Bool, (∀ j, piState j = true → x j = true) →
        rows.count x = 2 ^ (upLimit - (List.ofFn piState).count false) := by
  refine ⟨tableRows piState upLimit, lastGeneration_vectors ioNames small fits,
    tableRows_length piState upLimit, fun i inside => ?_,
    fun x listed j => dummy_of_mem_tableRows listed, fun x => count_tableRows fits⟩
  rw [generationRow_eq small fits inside]
  rfl

/-- With one real input among three and a limit of two, each value of it occurs twice. -/
theorem lastGeneration_complete_sample :
    ∃ rows : List (Fin 3 → Bool), rows.length = 4 ∧ rows.count ![true, false, true] = 2 := by
  have small : 2 < 30 := by decide
  obtain ⟨rows, -, size, -, -, count⟩ := lastGeneration_complete [] ![true, false, true] small
    (by decide)
  exact ⟨rows, size, count ![true, false, true] (by decide)⟩

end LogicRegression.Pattern
