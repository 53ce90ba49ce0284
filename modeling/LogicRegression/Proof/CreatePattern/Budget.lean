import LogicRegression.Construction.TimingFunc
import LogicRegression.Proof.CreatePattern.Closure

namespace LogicRegression.TimingFunc

open Binary

theorem truncate_le {value : ℚ} (nonneg : 0 ≤ value) : (truncate value : ℚ) ≤ value := by
  rw [truncate, if_pos nonneg]
  exact Int.floor_le value

theorem truncate_nonneg {value : ℚ} (nonneg : 0 ≤ value) : 0 ≤ truncate value := by
  rw [truncate, if_pos nonneg]
  exact Int.floor_nonneg.mpr nonneg

/-- A negative capacity is replaced. -/
theorem fullCapacity_nonneg (rounding : Rounding) (elapsed gatecnt : ℤ) (timingInfo : TimingInfo)
    (undefined : ℤ) : 0 ≤ fullCapacity rounding elapsed gatecnt timingInfo undefined := by
  unfold fullCapacity
  split
  · decide
  · next fits => exact not_lt.mp fits

section Limit

variable {capacity : ℤ} {timingInfo : TimingInfo} {n : ℕ}

theorem upLimit_nonneg (rounding : Rounding) (nonneg : 0 ≤ capacity) (size : timingInfo.piNum = n) :
    0 ≤ upLimit rounding capacity timingInfo := by
  have half : timingInfo.piNum.tdiv 2 + 2 = (n / 2 + 2 : ℕ) := by
    rw [size]
    rfl
  have capacityNonneg : (0 : ℚ) ≤ capacity := by exact_mod_cast nonneg
  have fraction : 0 ≤ rounding.run (4 / 5) := rounding.nonneg (by norm_num)
  have used : 0 ≤ rounding.run (capacity * rounding.run (4 / 5)) :=
    rounding.nonneg (mul_nonneg capacityNonneg fraction)
  have shared : 0 ≤ rounding.run (rounding.run (capacity * rounding.run (4 / 5)) /
      (n / 2 + 2 : ℕ)) := rounding.nonneg (by positivity)
  have limit := truncate_nonneg (rounding.nonneg (div_nonneg shared zero_le_two))
  rw [upLimit, half, Int.cast_natCast]
  split
  · decide
  · exact limit

/-- Without rounding the limit never exceeds its exact value. -/
theorem upLimit_le {rounding : Rounding} (exact : rounding.run = id) (nonneg : 0 ≤ capacity)
    (size : timingInfo.piNum = n) :
    (upLimit rounding capacity timingInfo : ℚ) ≤ capacity * (4 / 5) / (n / 2 + 2 : ℕ) / 2 := by
  have half : timingInfo.piNum.tdiv 2 + 2 = (n / 2 + 2 : ℕ) := by
    rw [size]
    rfl
  have value : (0 : ℚ) ≤ capacity * (4 / 5) / (n / 2 + 2 : ℕ) / 2 := by
    have capacityNonneg : (0 : ℚ) ≤ capacity := by exact_mod_cast nonneg
    positivity
  have below := truncate_le value
  rw [upLimit, half, Int.cast_natCast, exact]
  simp only [id]
  split
  · next capped =>
      have large : ((110000 : ℤ) : ℚ) ≤ _ := Int.cast_le.mpr capped.2.2.2.le
      exact large.trans below
  · exact below

variable (rounding : Rounding) (elapsed gatecnt undefined : ℤ)

theorem timingFunction_nonneg (size : timingInfo.piNum = n) :
    0 ≤ (timingFunction rounding elapsed gatecnt timingInfo undefined).1 := by
  unfold timingFunction
  dsimp only
  split
  · exact le_refl 0
  · exact upLimit_nonneg rounding (fullCapacity_nonneg rounding elapsed gatecnt timingInfo undefined)
      size

variable {rounding} in
/-- Twice the limit for each level and two random phases stay within four fifths. -/
theorem timingFunction_share (exact : rounding.run = id) (size : timingInfo.piNum = n) :
    2 * (timingFunction rounding elapsed gatecnt timingInfo undefined).1 * (n / 2 + 2 : ℕ) ≤
      (4 / 5 : ℚ) * fullCapacity rounding elapsed gatecnt timingInfo undefined := by
  have capacity := fullCapacity_nonneg rounding elapsed gatecnt timingInfo undefined
  unfold timingFunction
  dsimp only
  split
  · have capacityNonneg :
        (0 : ℚ) ≤ fullCapacity rounding elapsed gatecnt timingInfo undefined := by
      exact_mod_cast capacity
    rw [Int.cast_zero, mul_zero, zero_mul]
    positivity
  · have below := upLimit_le exact capacity size
    have positive : (0 : ℚ) < (n / 2 + 2 : ℕ) := by positivity
    rw [div_div, le_div_iff₀ (by positivity)] at below
    linarith

end Limit

end LogicRegression.TimingFunc

namespace LogicRegression.FixNetwork

open Binary TimingFunc

variable {inputNum : ℕ}

/-- A push adds at most one vector. -/
theorem length_pushNew_le (x : Fin inputNum → Bool) (s : Patterns inputNum) :
    (s.pushNew x).iogenInputPatterns.length ≤ s.iogenInputPatterns.length + 1 := by
  unfold Patterns.pushNew
  split
  · exact Nat.le_succ _
  · exact length_record.le

/-- One `printRes` call adds at most four vectors. -/
theorem length_printRes_le (realPI : List (Fin inputNum)) (twoOrder : Bool) (s : Patterns inputNum)
    (index : List Bool) :
    (printRes realPI twoOrder s index).iogenInputPatterns.length ≤
      s.iogenInputPatterns.length + 4 := by
  let x := markBits realPI index
  let y := assignBits realPI.reverse index
  have first := length_pushNew_le x s
  have second := length_pushNew_le (flip x) (s.pushNew x)
  have third := length_pushNew_le y ((s.pushNew x).pushNew (flip x))
  have fourth := length_pushNew_le (flip y) (((s.pushNew x).pushNew (flip x)).pushNew y)
  cases twoOrder with
  | false =>
      change ((s.pushNew x).pushNew (flip x)).iogenInputPatterns.length ≤ _
      omega
  | true =>
      change ((((s.pushNew x).pushNew (flip x)).pushNew y).pushNew
        (flip y)).iogenInputPatterns.length ≤ _
      omega

theorem length_printAll_le (realPI : List (Fin inputNum)) (twoOrder : Bool) (s : Patterns inputNum)
    (indices : List (List Bool)) :
    ((printAll realPI twoOrder s indices).getLastD s).iogenInputPatterns.length ≤
      s.iogenInputPatterns.length + 4 * indices.length := by
  induction indices generalizing s with
  | nil => simp [printAll]
  | cons index indices ih =>
      have first := length_printRes_le realPI twoOrder s index
      have later := ih (printRes realPI twoOrder s index)
      rw [printAll, List.getLastD_cons, List.length_cons]
      omega

/-- The loop of `Comb` prints one vector for each two units of the limit. -/
theorem combLoop_length {n k fuel : ℕ} {patternUpLimit patternSize : ℤ} {index : List Bool}
    {printed : List (List Bool)}
    (returned : combLoop n k patternUpLimit fuel index patternSize = some printed) :
    2 * (printed.length : ℤ) ≤ max 0 (patternUpLimit - patternSize + 1) := by
  induction fuel generalizing index patternSize printed with
  | zero => simp [combLoop] at returned
  | succ fuel ih =>
      rw [combLoop] at returned
      split at returned
      · obtain rfl := Option.some.inj returned
        exact le_max_left _ _
      · split at returned
        · exact ih returned
        · split at returned
          · next below =>
              obtain ⟨later, rest, rfl⟩ := Option.map_eq_some_iff.mp returned
              have bound := ih rest
              rw [List.length_cons]
              push_cast
              omega
          · obtain rfl := Option.some.inj returned
            exact le_max_left _ _

/-- One level adds at most twice the limit and four more vectors. -/
theorem combIndices_length {n k fuel : ℕ} {patternUpLimit : ℤ} {indices : List (List Bool)}
    (returned : combIndices fuel n k patternUpLimit = some indices) :
    4 * (indices.length : ℤ) ≤ 2 * max 0 patternUpLimit + 4 := by
  obtain ⟨printed, rest, rfl⟩ := Option.map_eq_some_iff.mp returned
  have bound := combLoop_length rest
  rw [List.length_cons]
  push_cast
  omega

theorem levels_length {fuel n : ℕ} {patternUpLimit : ℤ} {realPI : List (Fin inputNum)}
    {uninit : ℕ → ℤ} {rounds j k : ℕ} {overLimit : Bool} {s : Patterns inputNum}
    {found : List (Level inputNum)}
    (returned : levels fuel n patternUpLimit realPI uninit rounds j k overLimit s = some found) :
    (((found.flatMap Level.visited).getLastD s).iogenInputPatterns.length : ℤ) ≤
      s.iogenInputPatterns.length + rounds * (2 * max 0 patternUpLimit + 4) := by
  induction rounds generalizing j k overLimit s found with
  | zero =>
      obtain rfl : found = [] := by simpa [levels] using returned.symm
      simp
  | succ rounds ih =>
      simp only [levels, Option.bind_eq_bind, Option.bind_eq_some_iff, Option.pure_def,
        Option.some.injEq] at returned
      obtain ⟨result, -, indices, printed, later, rest, rfl⟩ := returned
      have here := length_printAll_le realPI (decide (result > patternUpLimit)) s indices
      have level := combIndices_length printed
      have others := ih rest
      rw [List.flatMap_cons, getLastD_append]
      push_cast
      linarith

/-- The patterns of a call stay within the budget of its limit. -/
theorem createPattern_length {fuel n k round count used : ℕ} {patternUpLimit : ℤ}
    {realPI : List (Fin inputNum)} {uninit : ℕ → ℤ} {rand : ℕ → ℕ} {run : Run inputNum}
    (returned : createPattern fuel n k round patternUpLimit realPI uninit rand count =
      some (run, used)) :
    (run.final.iogenInputPatterns.length : ℤ) ≤
      2 * max 0 patternUpLimit * (round + 2) + 4 * round := by
  obtain ⟨levelled, middle, first, second⟩ := createPattern_parts returned
  have enumerated := levels_length levelled
  have extreme := randomLoop_length first
  have plain := randomLoop_length second
  have final : run.final = run.plain.getLastD (run.extreme.getLastD run.enumerated) := by
    rw [Run.final, Run.visited, getLastD_append, getLastD_append]
    rfl
  change (run.enumerated.iogenInputPatterns.length : ℤ) ≤ _ at enumerated
  have rounds : (((patternUpLimit - 0).toNat : ℕ) : ℤ) = max 0 patternUpLimit := by omega
  rw [final, plain, extreme]
  push_cast [rounds]
  have empty : ((Patterns.empty : Patterns inputNum).iogenInputPatterns.length : ℤ) = 0 := rfl
  rw [empty] at enumerated
  linarith

/-- A non-negative number does not grow when it becomes an `int`. -/
theorem max_toInt_le {value : ℤ} (nonneg : 0 ≤ value) : max 0 (toInt value) ≤ value := by
  rw [toInt, Int.bmod_def]
  norm_num
  split <;> omega

/-- The patterns of an output stay within the budget of the limit that the output gets and, without
rounding, within four fifths of its capacity apart from four for each level. -/
theorem createPattern_budget (rounding : Rounding) {realPI : List (Fin inputNum)}
    {timingInfo : TimingInfo} (size : timingInfo.piNum = realPI.length)
    (elapsed gatecnt undefined : ℤ) {fuel count used : ℕ} {uninit : ℕ → ℤ} {rand : ℕ → ℕ}
    {run : Run inputNum}
    (returned : createPattern fuel realPI.length 0 (realPI.length / 2)
      (toInt (timingFunction rounding elapsed gatecnt timingInfo undefined).1) realPI uninit rand
        count = some (run, used)) :
    (run.final.iogenInputPatterns.length : ℤ) ≤
        2 * (timingFunction rounding elapsed gatecnt timingInfo undefined).1 *
          (realPI.length / 2 + 2 : ℕ) + 4 * (realPI.length / 2 : ℕ) ∧
      (rounding.run = id → (run.final.iogenInputPatterns.length : ℚ) ≤
        (4 / 5) * fullCapacity rounding elapsed gatecnt timingInfo undefined +
          4 * (realPI.length / 2 : ℕ)) := by
  have nonneg := timingFunction_nonneg rounding elapsed gatecnt undefined size
  have share (exact : rounding.run = id) :=
    timingFunction_share elapsed gatecnt undefined exact size
  have limit := max_toInt_le nonneg
  have total := createPattern_length returned
  generalize (timingFunction rounding elapsed gatecnt timingInfo undefined).1 = L at *
  have budget : (run.final.iogenInputPatterns.length : ℤ) ≤
      2 * L * (realPI.length / 2 + 2 : ℕ) + 4 * (realPI.length / 2 : ℕ) := by
    have levels : max 0 (toInt L) * ((realPI.length / 2 : ℕ) + 2 : ℤ) ≤
        L * ((realPI.length / 2 : ℕ) + 2) :=
      mul_le_mul_of_nonneg_right limit (by positivity)
    push_cast at levels total ⊢
    linarith
  refine ⟨budget, fun exact => ?_⟩
  have scaled := share exact
  have bound : (run.final.iogenInputPatterns.length : ℚ) ≤
      2 * L * (realPI.length / 2 + 2 : ℕ) + 4 * (realPI.length / 2 : ℕ) := by
    have cast := (Int.cast_le (R := ℚ)).mpr budget
    push_cast at cast ⊢
    exact cast
  linarith

/-- This output has two of the four real inputs that are left, and two seconds. -/
def sampleTiming : TimingInfo := ⟨4, 2, 600⟩

theorem sampleTiming_limit : (timingFunction Rounding.exact 2498 10 sampleTiming 0).1 = 1 := by
  have factor : perSecond 600 = 9 := by decide
  norm_num [timingFunction, upLimit, fullCapacity, capacity, piNumRatio, mag, remainingTime,
    sampleTiming, truncate, factor, Rounding.exact]

theorem createPattern_budget_sample :
    ∃ run used, sampleCall = some (run, used) ∧ run.final.iogenInputPatterns.length ≤ 10 ∧
      (run.final.iogenInputPatterns.length : ℚ) ≤
        (4 / 5) * fullCapacity Rounding.exact 2498 10 sampleTiming 0 + 4 := by
  obtain ⟨⟨run, used⟩, returned⟩ := Option.isSome_iff_exists.mp sampleCall_returns
  have call := returned
  have limit : toInt (timingFunction Rounding.exact 2498 10 sampleTiming 0).1 = 1 := by
    rw [sampleTiming_limit]
    rfl
  rw [sampleCall, ← limit] at call
  obtain ⟨budget, share⟩ := createPattern_budget Rounding.exact rfl 2498 10 0 call
  rw [sampleTiming_limit] at budget
  use run, used, returned
  constructor
  · simpa [sampleRealPI] using budget
  · simpa [sampleRealPI] using share rfl

end LogicRegression.FixNetwork
