import LogicRegression.Construction.Verify
import LogicRegression.Proof.CreatePattern.Closure

namespace LogicRegression.Verify

open Text FixNetwork

variable {n patternNum i : ℕ} {s : Sampling n} {x : Fin n → Bool}

/-- The sampler has final values in the first `i` rows, and all keys are theirs. -/
structure Filled (patternNum i : ℕ) (s : Sampling n) : Prop where
  size : s.iogenInputPatterns.length = patternNum
  keys : s.ppp.map Prod.fst = (s.iogenInputPatterns.take i).map toStr
  distinct : (s.iogenInputPatterns.take i).Nodup
  once : ∀ (r : ℕ) (row : Fin n → Bool), r < i → s.iogenInputPatterns[r]? = some row →
    s.written.count ((r : ℤ), row) = 1
  known : ∀ (r : ℤ) (row : Fin n → Bool), (r, row) ∈ s.written → 0 ≤ r ∧
    (r < i ∨ r = i ∧ i < patternNum ∧ row ∈ s.iogenInputPatterns.take i)

/-- The three loops together write each row once at its final value, and write no other row. -/
structure Tiles (patternNum : ℕ) (s : Sampling n) : Prop where
  size : s.iogenInputPatterns.length = patternNum
  inside : ∀ (r : ℤ) (row : Fin n → Bool), (r, row) ∈ s.written → 0 ≤ r ∧ r < patternNum
  once : ∀ (r : ℕ) (row : Fin n → Bool), s.iogenInputPatterns[r]? = some row →
    s.written.count ((r : ℤ), row) = 1
  distinct : s.iogenInputPatterns.Nodup

theorem start_filled : Filled patternNum 0 (start n patternNum) := by
  constructor
  · simp [start]
  · simp [start]
  · simp
  · simp
  · simp [start]

theorem Filled.tiles (filled : Filled patternNum patternNum s) : Tiles patternNum s := by
  have all : s.iogenInputPatterns.take patternNum = s.iogenInputPatterns :=
    List.take_of_length_le filled.size.le
  constructor
  · exact filled.size
  · intro r row written
    have place := filled.known r row written
    omega
  · intro r row listed
    obtain ⟨inside, -⟩ := List.getElem?_eq_some_iff.mp listed
    exact filled.once r row (filled.size ▸ inside) listed
  · rw [← all]
    exact filled.distinct

/-- The state after row `i` was written. -/
def Sampling.wrote (i : ℕ) (x : Fin n → Bool) (s : Sampling n) : Sampling n :=
  { s with
    iogenInputPatterns := s.iogenInputPatterns.set i x
    count := s.count + n
    written := s.written ++ [((i : ℤ), x)] }

/-- A row beyond the final ones is in the table. -/
theorem Filled.writeRow_ok (filled : Filled patternNum i s) (room : i < patternNum) :
    s.writeRow i x = .ok (s.wrote i x) := by
  rw [Sampling.writeRow, if_pos (by rw [filled.size]; omega), Int.toNat_natCast]
  rfl

/-- The final rows stay when row `i` is written. -/
theorem take_wrote : (s.wrote i x).iogenInputPatterns.take i = s.iogenInputPatterns.take i :=
  List.take_set_of_le le_rfl

/-- The final rows are still written once. -/
theorem Filled.once_wrote (filled : Filled patternNum i s) {r : ℕ} {row : Fin n → Bool}
    (before : r < i) (listed : (s.wrote i x).iogenInputPatterns[r]? = some row) :
    (s.wrote i x).written.count ((r : ℤ), row) = 1 := by
  have other : ((i : ℤ), x) ≠ ((r : ℤ), row) := fun same => by
    have index := congrArg Prod.fst same
    dsimp only at index
    omega
  rw [Sampling.wrote, List.getElem?_set_ne (by omega)] at listed
  rw [Sampling.wrote, List.count_append, List.count_singleton, if_neg (by simpa using other),
    filled.once r row before listed]

/-- A vector with a known key leaves the final rows. -/
theorem Filled.again (filled : Filled patternNum i s) (room : i < patternNum)
    (listed : toStr x ∈ s.ppp.map Prod.fst) : Filled patternNum i (s.wrote i x) := by
  have row : x ∈ s.iogenInputPatterns.take i := by
    rwa [filled.keys, List.mem_map_of_injective toStr_injective] at listed
  constructor
  · rw [Sampling.wrote, List.length_set]
    exact filled.size
  · rw [take_wrote]
    exact filled.keys
  · rw [take_wrote]
    exact filled.distinct
  · exact fun r row before listed => filled.once_wrote before listed
  · intro r z written
    rw [take_wrote]
    rcases List.mem_append.mp written with old | new
    · exact filled.known r z old
    · cases List.mem_singleton.mp new
      exact ⟨Int.natCast_nonneg i, .inr ⟨rfl, room, row⟩⟩

/-- A vector with a new key gives one more final row. -/
theorem Filled.advance (filled : Filled patternNum i s) (room : i < patternNum)
    (fresh : toStr x ∉ s.ppp.map Prod.fst) :
    Filled patternNum (i + 1)
      { s.wrote i x with ppp := (s.wrote i x).ppp ++ [(toStr x, (i : ℤ))] } := by
  have row : x ∉ s.iogenInputPatterns.take i := by
    rwa [filled.keys, List.mem_map_of_injective toStr_injective] at fresh
  have inside : i < s.iogenInputPatterns.length := filled.size ▸ room
  have cell : (s.wrote i x).iogenInputPatterns[i]? = some x := List.getElem?_set_self inside
  have rows : (s.wrote i x).iogenInputPatterns.take (i + 1) =
      s.iogenInputPatterns.take i ++ [x] := by
    rw [List.take_add_one, take_wrote, cell, Option.toList_some]
  constructor
  · rw [Sampling.wrote, List.length_set]
    exact filled.size
  · rw [rows, List.map_append, List.map_append, ← filled.keys]
    rfl
  · rw [rows, ← List.concat_eq_append]
    exact filled.distinct.concat row
  · intro r z before listed
    obtain earlier | rfl : r < i ∨ r = i := by omega
    · exact filled.once_wrote earlier listed
    · obtain rfl : x = z := Option.some.inj (cell.symm.trans listed)
      have unknown : ((r : ℤ), x) ∉ s.written := fun written => by
        obtain ⟨-, earlier | ⟨-, -, known⟩⟩ := filled.known r x written
        · omega
        · exact row known
      rw [Sampling.wrote, List.count_append, List.count_eq_zero.mpr unknown,
        List.count_singleton_self]
  · intro r z written
    rcases List.mem_append.mp written with old | new
    · have place := filled.known r z old
      omega
    · cases List.mem_singleton.mp new
      omega

/-- A loop that ends has filled the rows up to its last index. -/
theorem generate_filled {bit : ℕ → Bool} {rand : ℕ → ℕ} {fuel last : ℕ}
    {outcome : Except Stop (Sampling n)} (filled : Filled patternNum i s) (order : i ≤ last)
    (bound : last ≤ patternNum) (returned : generate bit last rand fuel i s = some outcome) :
    ∃ final, outcome = .ok final ∧ Filled patternNum last final := by
  induction fuel generalizing i s with
  | zero => cases returned
  | succ fuel ih =>
      rw [generate] at returned
      split at returned
      · next before =>
          have short : i < last := by omega
          have room : i < patternNum := by omega
          dsimp only at returned
          rw [filled.writeRow_ok room] at returned
          dsimp only at returned
          split at returned
          · next listed => exact ih (filled.again room listed) order returned
          · next fresh => exact ih (filled.advance room fresh) short returned
      · next done =>
          have ended : i = last := by omega
          cases returned
          exact ⟨s, rfl, ended ▸ filled⟩

/-- A loop that starts at a negative row stops there. -/
theorem generate_outside {bit : ℕ → Bool} {rand : ℕ → ℕ} {fuel : ℕ} {first last : ℤ}
    (before : first < last) (negative : first < 0) :
    generate bit last rand (fuel + 1) first s = some (.error (.row first)) := by
  rw [generate, if_pos before]
  dsimp only
  rw [Sampling.writeRow, if_neg (by omega)]

/-- A loop runs from the state in which the one before it ended. -/
theorem exists_of_continueWith {P : Sampling n → Prop} {result : Option (Except Stop (Sampling n))}
    {next : Sampling n → Option (Except Stop (Sampling n))} {outcome : Except Stop (Sampling n)}
    (returned : continueWith next result = some outcome)
    (before : ∀ outcome, result = some outcome → ∃ final, outcome = .ok final ∧ P final) :
    ∃ s, P s ∧ next s = some outcome := by
  cases result with
  | none => cases returned
  | some result =>
      obtain ⟨final, rfl, holds⟩ := before result rfl
      exact ⟨final, holds, returned⟩

/-- An argument that fits is not changed. -/
theorem atoi_of_lt {count : ℕ} (fits : count < 2 ^ 31) : atoi count = count := by
  rw [atoi, min_eq_left (by omega), Binary.toInt_of_lt fits]

/-- With too few rows the second loop starts at a negative row, or there is no table at all. -/
theorem createPattern_outside {count : ℕ} (few : atoi count < 20000) (rand : ℕ → ℕ) (fuel : ℕ) :
    ∃ stop, (createPattern count rand (fuel + 1) : Option (Except Stop (Sampling n))) =
      some (.error stop) := by
  have sizes : testPatterns0 = 10000 ∧ testPatterns1 = 10000 := ⟨rfl, rfl⟩
  by_cases negative : atoi count < 0
  · refine ⟨.size (atoi count), ?_⟩
    rw [createPattern]
    exact if_pos negative
  · refine ⟨.row (atoi count - testPatterns0 - testPatterns1), ?_⟩
    rw [createPattern]
    dsimp only
    rw [if_neg negative, generate, if_neg (by omega), continueWith,
      generate_outside (by omega) (by omega)]
    rfl

/-- The loops tile the table exactly when the number that `atoi` returns is at least the sum of the
fixed sizes. -/
theorem phases_tile_iff (n count : ℕ) :
    (∀ (rand : ℕ → ℕ) (fuel : ℕ) (outcome : Except Stop (Sampling n)),
      createPattern count rand fuel = some outcome →
        ∃ s, outcome = .ok s ∧ Tiles (atoi count).toNat s) ↔ 20000 ≤ atoi count := by
  constructor
  · intro tiled
    by_contra few
    obtain ⟨stop, stopped⟩ := createPattern_outside (n := n) (lt_of_not_ge few) (fun _ => 0) 0
    obtain ⟨s, ended, -⟩ := tiled (fun _ => 0) 1 _ stopped
    cases ended
  · intro enough rand fuel outcome returned
    obtain ⟨patternNum, given⟩ := Int.eq_ofNat_of_zero_le (show 0 ≤ atoi count by omega)
    rw [given] at enough
    have large : 20000 ≤ patternNum := by exact_mod_cast enough
    obtain ⟨rest, rfl⟩ := Nat.exists_eq_add_of_le large
    have sizes : testPatterns0 = 10000 ∧ testPatterns1 = 10000 := ⟨rfl, rfl⟩
    have second : ((20000 + rest : ℕ) : ℤ) - testPatterns0 - testPatterns1 = (rest : ℕ) := by
      omega
    have third : ((20000 + rest : ℕ) : ℤ) - testPatterns0 = (10000 + rest : ℕ) := by omega
    rw [createPattern] at returned
    dsimp only at returned
    rw [given, if_neg (by omega), second, third, Int.toNat_natCast] at returned
    rw [given, Int.toNat_natCast]
    -- Each loop fills the rows up to the place where the next one starts.
    obtain ⟨s, filled, returned⟩ := exists_of_continueWith returned fun outcome returned =>
      let ⟨_, first, returned⟩ := exists_of_continueWith returned fun outcome returned =>
        generate_filled start_filled (Nat.zero_le rest) (by omega) returned
      generate_filled first (by omega) (by omega) returned
    obtain ⟨final, rfl, all⟩ := generate_filled filled (by omega) le_rfl returned
    exact ⟨final, rfl, all.tiles⟩

/-- A count of a thousand rows makes the verifier write a row that its table does not have. -/
theorem phases_thousand :
    ¬ ∀ n count : ℕ, 0 < n → ∀ (rand : ℕ → ℕ) (fuel : ℕ) (outcome : Except Stop (Sampling n)),
      createPattern count rand fuel = some outcome →
        ∃ s, outcome = .ok s ∧ Tiles (atoi count).toNat s := by
  intro tiled
  have few : atoi 1000 < 20000 := by
    rw [atoi_of_lt (by decide)]
    decide
  obtain ⟨stop, stopped⟩ := createPattern_outside (n := 1) few (fun _ => 0) 0
  obtain ⟨s, ended, -⟩ := tiled 1 1000 (by decide) (fun _ => 0) 1 _ stopped
  cases ended

end LogicRegression.Verify
