import LogicRegression.Proof.CreatePattern.Budget

namespace LogicRegression.TimingFunc

open Binary

section Checks

theorem checkInt_of_fits {value : ℤ} (low : -2 ^ 31 ≤ value) (high : value < 2 ^ 31) :
    checkInt value = .ok value := if_pos ⟨low, high⟩

theorem checkInt_of_large {value : ℤ} (large : 2 ^ 31 ≤ value) :
    checkInt value = .error .intOverflow := if_neg fun fits => absurd fits.2 (not_lt.mpr large)

theorem eq_of_checkInt {value result : ℤ} (returned : checkInt value = .ok result) :
    -2 ^ 31 ≤ value ∧ value < 2 ^ 31 ∧ result = value := by
  unfold checkInt at returned
  split at returned
  · next fits => exact ⟨fits.1, fits.2, (Except.ok.inj returned).symm⟩
  · cases returned

/-- The first step of a faultless evaluation is faultless. -/
theorem ok_of_bind {A B : Type} {first : Except Fault A} {next : A → Except Fault B} {result : B}
    (returned : first >>= next = .ok result) : ∃ a, first = .ok a ∧ next a = .ok result := by
  cases first with
  | error fault => cases returned
  | ok a => exact ⟨a, rfl, returned⟩

theorem divide_of_ne {dividend divisor : ℚ} (nonzero : divisor ≠ 0) :
    divide dividend divisor = .ok (dividend / divisor) := if_neg nonzero

/-- A quotient of non-negative numbers is no larger than its dividend. -/
theorem divideInt_of_pos {dividend divisor : ℤ} (nonneg : 0 ≤ dividend) (fits : dividend < 2 ^ 31)
    (positive : 0 < divisor) : divideInt dividend divisor = .ok (dividend / divisor) := by
  have quotient : dividend.tdiv divisor = dividend / divisor := Int.tdiv_eq_ediv_of_nonneg nonneg
  have low := Int.ediv_nonneg nonneg positive.le
  have high := Int.ediv_le_self divisor nonneg
  rw [divideInt, if_neg positive.ne', quotient]
  exact checkInt_of_fits (by omega) (by omega)

theorem eq_of_divide {dividend divisor result : ℚ} (returned : divide dividend divisor = .ok result) :
    divisor ≠ 0 ∧ result = dividend / divisor := by
  unfold divide at returned
  split at returned
  · cases returned
  · next nonzero => exact ⟨nonzero, (Except.ok.inj returned).symm⟩

theorem eq_of_divideInt {dividend divisor result : ℤ}
    (returned : divideInt dividend divisor = .ok result) : result = dividend.tdiv divisor := by
  unfold divideInt at returned
  split at returned
  · cases returned
  · exact (eq_of_checkInt returned).2.2

end Checks

section Rounded

variable (rounding : Rounding)

theorem Rounding.int (k : ℤ) (small : |k| ≤ 2 ^ 52) : rounding.run k = k := by
  have double : |2 * k| ≤ 2 ^ 53 := by
    rw [abs_mul]
    norm_num
    omega
  have half := rounding.half (2 * k) double
  have same : ((2 * k : ℤ) : ℚ) / 2 = k := by
    push_cast
    ring
  rwa [same] at half

/-- A rounded number stays between zero and an integer. -/
theorem Rounding.between (high : ℤ) (value : ℚ) (small : high ≤ 2 ^ 52) (nonneg : 0 ≤ value)
    (below : value ≤ high) : 0 ≤ rounding.run value ∧ rounding.run value ≤ high := by
  have positive : 0 ≤ high := by exact_mod_cast nonneg.trans below
  have first := rounding.mono 0 value nonneg
  have second := rounding.mono value high below
  have zero := rounding.int 0 (by norm_num)
  rw [Int.cast_zero] at zero
  rw [zero] at first
  rw [rounding.int high (by rwa [abs_of_nonneg positive])] at second
  exact ⟨first, second⟩

omit rounding in
theorem truncate_between {high : ℤ} {value : ℚ} (nonneg : 0 ≤ value) (below : value ≤ high) :
    0 ≤ truncate value ∧ truncate value ≤ high := by
  have floor := (truncate_le nonneg).trans below
  exact ⟨truncate_nonneg nonneg, by exact_mod_cast floor⟩

omit rounding in
/-- At most 9960 patterns fit one second. -/
theorem perSecond_le {patternPerMin : ℤ} (nonneg : 0 ≤ patternPerMin) :
    patternPerMin * 166 / (patternPerMin / 60 + 10000) ≤ 9960 := by
  have positive : 0 < patternPerMin / 60 + 10000 := by omega
  have below : patternPerMin * 166 / (patternPerMin / 60 + 10000) < 9961 :=
    Int.ediv_lt_of_lt_mul positive (by omega)
  omega

/-- The capacity is never negative, and it stays below fifty millions. -/
theorem capacity_between {remaining perSecond : ℤ} {ratio mag : ℚ} (time : 0 ≤ remaining)
    (limited : remaining ≤ 2500) (speed : 0 ≤ perSecond) (fast : perSecond ≤ 9960)
    (low : 0 ≤ ratio) (high : ratio ≤ 1) (factor : mag = 1 ∨ mag = 2) :
    0 ≤ truncate (rounding.run (rounding.run (remaining * ratio) * rounding.run (perSecond * mag))) ∧
      truncate (rounding.run (rounding.run (remaining * ratio) * rounding.run (perSecond * mag))) ≤
        49800000 := by
  have timeQ : (0 : ℚ) ≤ remaining := by exact_mod_cast time
  have limitedQ : (remaining : ℚ) ≤ 2500 := by exact_mod_cast limited
  have speedQ : (0 : ℚ) ≤ perSecond := by exact_mod_cast speed
  have fastQ : (perSecond : ℚ) ≤ 9960 := by exact_mod_cast fast
  have part : 0 ≤ rounding.run (remaining * ratio) ∧ rounding.run (remaining * ratio) ≤ 2500 := by
    have exact := rounding.between 2500 (remaining * ratio) (by norm_num) (by positivity)
      (by push_cast; nlinarith only [timeQ, limitedQ, low, high])
    exact_mod_cast exact
  have rate : 0 ≤ rounding.run (perSecond * mag) ∧ rounding.run (perSecond * mag) ≤ 19920 := by
    have exact := rounding.between 19920 (perSecond * mag) (by norm_num)
      (by rcases factor with rfl | rfl <;> linarith)
      (by rcases factor with rfl | rfl <;> push_cast <;> linarith)
    exact_mod_cast exact
  have product := mul_le_mul part.2 rate.2 rate.1 (by norm_num)
  have rounded := rounding.between 49800000
    (rounding.run (remaining * ratio) * rounding.run (perSecond * mag)) (by norm_num)
    (mul_nonneg part.1 rate.1) (by push_cast; linarith only [product])
  exact truncate_between rounded.1 rounded.2

/-- The rounded number stays below the next integer, and half of that is exact. -/
theorem half_between {value : ℚ} (nonneg : 0 ≤ value) (small : ⌈value⌉ ≤ 2 ^ 52) :
    0 ≤ truncate (rounding.run (rounding.run value / 2)) ∧
      2 * truncate (rounding.run (rounding.run value / 2)) ≤ ⌈value⌉ := by
  have ceilNonneg : 0 ≤ ⌈value⌉ := Int.ceil_nonneg nonneg
  have rounded := rounding.between ⌈value⌉ value small nonneg (Int.le_ceil value)
  have halved : 0 ≤ rounding.run (rounding.run value / 2) ∧
      rounding.run (rounding.run value / 2) ≤ ⌈value⌉ / 2 := by
    have exact := rounding.half ⌈value⌉ (by rw [abs_of_nonneg ceilNonneg]; omega)
    have zero := rounding.int 0 (by norm_num)
    have first := rounding.mono 0 (rounding.run value / 2) (by linarith [rounded.1])
    have second := rounding.mono (rounding.run value / 2) (⌈value⌉ / 2) (by
      linarith [rounded.2])
    rw [Int.cast_zero] at zero
    rw [zero] at first
    rw [exact] at second
    exact ⟨first, second⟩
  constructor
  · exact truncate_nonneg halved.1
  · have below := (truncate_le halved.1).trans halved.2
    have double : (2 : ℚ) * truncate (rounding.run (rounding.run value / 2)) ≤ ⌈value⌉ := by
      linarith
    exact_mod_cast double

omit rounding in
/-- Half of the next integer after a share fits all levels: it is zero for less than one pattern
for each level. -/
theorem half_shared {full levels result : ℤ} {quotient : ℚ} (positive : 0 < levels)
    (small : full ≤ 49800000) (share : quotient ≤ full / levels) (nonneg : 0 ≤ result)
    (half : 2 * result ≤ ⌈quotient⌉) : result * levels ≤ 800000000 := by
  have positiveQ : (0 : ℚ) < levels := by exact_mod_cast positive
  by_cases few : quotient ≤ 1
  · have ceil : ⌈quotient⌉ ≤ 1 := Int.ceil_le.mpr (by exact_mod_cast few)
    have zero : result = 0 := by omega
    rw [zero, zero_mul]
    norm_num
  · have shared : ⌈quotient⌉ * levels < full + levels := by
      have next := Int.ceil_lt_add_one quotient
      have product : (⌈quotient⌉ : ℚ) * levels < full + levels := by
        calc (⌈quotient⌉ : ℚ) * levels < (quotient + 1) * levels := by gcongr
          _ ≤ (full / levels + 1) * levels := by gcongr
          _ = full + levels := by field_simp
      exact_mod_cast product
    have fewer : levels < full := by
      have several : 1 < (full : ℚ) / levels := (not_le.mp few).trans_le share
      rw [lt_div_iff₀ positiveQ, one_mul] at several
      exact_mod_cast several
    have scaled := Int.mul_le_mul_of_nonneg_right half positive.le
    nlinarith only [scaled, shared, fewer, small]

/-- The limit is shared by the levels, also after rounding. -/
theorem limit_between {full levels : ℤ} (nonneg : 0 ≤ full) (small : full ≤ 49800000)
    (positive : 0 < levels) :
    0 ≤ truncate (rounding.run
        (rounding.run (rounding.run (full * rounding.run (4 / 5)) / levels) / 2)) ∧
      truncate (rounding.run
        (rounding.run (rounding.run (full * rounding.run (4 / 5)) / levels) / 2)) * levels ≤
          800000000 := by
  have nonnegQ : (0 : ℚ) ≤ full := by exact_mod_cast nonneg
  have positiveQ : (0 : ℚ) < levels := by exact_mod_cast positive
  have factor := rounding.between 1 (4 / 5) (by norm_num) (by norm_num) (by norm_num)
  have reduced := rounding.between full (full * rounding.run (4 / 5)) (by omega)
    (mul_nonneg nonnegQ factor.1) (mul_le_of_le_one_right nonnegQ (by simpa using factor.2))
  have low : 0 ≤ rounding.run (full * rounding.run (4 / 5)) / levels :=
    div_nonneg reduced.1 positiveQ.le
  have share : rounding.run (full * rounding.run (4 / 5)) / levels ≤ full / levels :=
    div_le_div_of_nonneg_right reduced.2 positiveQ.le
  have ceilSmall : ⌈rounding.run (full * rounding.run (4 / 5)) / levels⌉ ≤ 49800000 := by
    apply Int.ceil_le.mpr
    have one : (1 : ℚ) ≤ levels := by exact_mod_cast positive
    have whole : (full : ℚ) / levels ≤ full := div_le_self nonnegQ one
    have smallQ : (full : ℚ) ≤ 49800000 := by exact_mod_cast small
    push_cast
    linarith
  obtain ⟨resultNonneg, half⟩ := half_between rounding low (by omega)
  exact ⟨resultNonneg, half_shared positive small share resultNonneg half⟩

end Rounded

section Call

/-- What `main` can pass: `int` values, a time that has passed, and an output with some of the
real inputs that are left. -/
structure IsCall (elapsed : ℤ) (timingInfo : TimingInfo) : Prop where
  passed : 0 ≤ elapsed
  rate : 0 ≤ timingInfo.patternPerMin ∧ timingInfo.patternPerMin < 2 ^ 31
  part : 0 ≤ timingInfo.piNum ∧ timingInfo.piNum ≤ timingInfo.restPI
  total : timingInfo.restPI < 2 ^ 31

variable (rounding : Rounding) {elapsed : ℤ} (gatecnt : ℤ) {timingInfo : TimingInfo}

theorem remainingTime_le (call : IsCall elapsed timingInfo) :
    remainingTime elapsed gatecnt ≤ 2500 := by
  have passed := call.passed
  unfold remainingTime
  split <;> omega

/-- Nothing is left to share. -/
theorem checkedTiming_zero (zero : timingInfo.restPI = 0) :
    checkedTiming rounding elapsed gatecnt timingInfo = .error .divisionByZero := by
  have fault : divide timingInfo.piNum timingInfo.restPI = .error .divisionByZero :=
    if_pos (by rw [zero, Int.cast_zero])
  rw [checkedTiming, fault]
  rfl

variable (call : IsCall elapsed timingInfo) (positive : 0 < timingInfo.restPI)
include call positive

/-- The share and the new rest are computed without a fault. -/
theorem share_ok :
    divide timingInfo.piNum timingInfo.restPI =
        .ok ((timingInfo.piNum : ℚ) / timingInfo.restPI) ∧
      checkInt (timingInfo.restPI - timingInfo.piNum) =
        .ok (timingInfo.restPI - timingInfo.piNum) := by
  have nonzero : (timingInfo.restPI : ℚ) ≠ 0 := by exact_mod_cast positive.ne'
  exact ⟨divide_of_ne nonzero, checkInt_of_fits (by linarith [call.part.2])
    (by linarith [call.part.1, call.total])⟩

theorem ratio_between :
    0 ≤ rounding.run ((timingInfo.piNum : ℚ) / timingInfo.restPI) ∧
      rounding.run ((timingInfo.piNum : ℚ) / timingInfo.restPI) ≤ 1 := by
  have positiveQ : (0 : ℚ) < timingInfo.restPI := by exact_mod_cast positive
  have partQ : (0 : ℚ) ≤ timingInfo.piNum := by exact_mod_cast call.part.1
  have wholeQ : (timingInfo.piNum : ℚ) ≤ timingInfo.restPI := by exact_mod_cast call.part.2
  have below : (timingInfo.piNum : ℚ) / timingInfo.restPI ≤ (1 : ℤ) := by
    rw [Int.cast_one]
    exact div_le_one_of_le₀ wholeQ positiveQ.le
  have bounds := rounding.between 1 _ (by norm_num) (div_nonneg partQ positiveQ.le) below
  rwa [Int.cast_one] at bounds

/-- Too much time has passed for an `int`. -/
theorem checkedTiming_late (late : remainingTime elapsed gatecnt < -2 ^ 31) :
    checkedTiming rounding elapsed gatecnt timingInfo = .error .intOverflow := by
  obtain ⟨share, rest⟩ := share_ok call positive
  have fault : checkInt (remainingTime elapsed gatecnt) = .error .intOverflow :=
    if_neg fun fits => absurd fits.1 (not_le.mpr late)
  rw [checkedTiming, share, rest, fault]
  rfl

variable (fits : -2 ^ 31 ≤ remainingTime elapsed gatecnt)
include fits

/-- With no time left the call returns zero before it uses the rate. -/
theorem checkedTiming_out (out : remainingTime elapsed gatecnt < 0) :
    checkedTiming rounding elapsed gatecnt timingInfo = .ok 0 := by
  obtain ⟨share, rest⟩ := share_ok call positive
  have remaining : checkInt (remainingTime elapsed gatecnt) = .ok (remainingTime elapsed gatecnt) :=
    checkInt_of_fits fits (by linarith)
  rw [checkedTiming, share, rest, remaining]
  exact if_pos out

variable (left : 0 ≤ remainingTime elapsed gatecnt)
include left

/-- The rate is multiplied on `int`. -/
theorem checkedTiming_fast (large : 2 ^ 31 ≤ timingInfo.patternPerMin * 166) :
    checkedTiming rounding elapsed gatecnt timingInfo = .error .intOverflow := by
  obtain ⟨share, rest⟩ := share_ok call positive
  have remaining : checkInt (remainingTime elapsed gatecnt) = .ok (remainingTime elapsed gatecnt) :=
    checkInt_of_fits fits (by linarith [remainingTime_le gatecnt call])
  rw [checkedTiming, share, rest, remaining, checkInt_of_large large]
  exact if_neg (not_lt.mpr left)

/-- Otherwise the call returns a limit that is shared by the levels. -/
theorem checkedTiming_ok (small : timingInfo.patternPerMin * 166 < 2 ^ 31) :
    ∃ limit, checkedTiming rounding elapsed gatecnt timingInfo = .ok limit ∧ 0 ≤ limit ∧
      limit * (timingInfo.piNum / 2 + 2) ≤ 800000000 := by
  obtain ⟨share, rest⟩ := share_ok call positive
  have limited := remainingTime_le gatecnt call
  have remaining : checkInt (remainingTime elapsed gatecnt) = .ok (remainingTime elapsed gatecnt) :=
    checkInt_of_fits fits (by linarith)
  have rate := call.rate
  have part := call.part
  have total := call.total
  have scaled : checkInt (timingInfo.patternPerMin * 166) = .ok (timingInfo.patternPerMin * 166) :=
    checkInt_of_fits (by omega) small
  have minutes : divideInt timingInfo.patternPerMin 60 = .ok (timingInfo.patternPerMin / 60) :=
    divideInt_of_pos rate.1 rate.2 (by decide)
  have divisor : checkInt (timingInfo.patternPerMin / 60 + 10000) =
      .ok (timingInfo.patternPerMin / 60 + 10000) := checkInt_of_fits (by omega) (by omega)
  have perSecond : divideInt (timingInfo.patternPerMin * 166)
      (timingInfo.patternPerMin / 60 + 10000) =
        .ok (timingInfo.patternPerMin * 166 / (timingInfo.patternPerMin / 60 + 10000)) :=
    divideInt_of_pos (by omega) small (by omega)
  have half : divideInt timingInfo.piNum 2 = .ok (timingInfo.piNum / 2) :=
    divideInt_of_pos part.1 (by omega) (by decide)
  have levels : checkInt (timingInfo.piNum / 2 + 2) = .ok (timingInfo.piNum / 2 + 2) :=
    checkInt_of_fits (by omega) (by omega)
  have several : 0 < timingInfo.piNum / 2 + 2 := by omega
  have severalQ : ((timingInfo.piNum / 2 + 2 : ℤ) : ℚ) ≠ 0 := by exact_mod_cast several.ne'
  have speed := perSecond_le rate.1
  have slow : 0 ≤ timingInfo.patternPerMin * 166 / (timingInfo.patternPerMin / 60 + 10000) :=
    Int.ediv_nonneg (by omega) (by omega)
  have ratio := ratio_between rounding call positive
  simp only [checkedTiming, share, rest, remaining, scaled, minutes, divisor, perSecond, half, levels,
    divide_of_ne severalQ, bind, Except.bind, pure, Except.pure, if_neg (not_lt.mpr left)]
  generalize rounding.run ((timingInfo.piNum : ℚ) / timingInfo.restPI) = piNumRatio at ratio ⊢
  have factor : (if gatecnt < 60 ∧ piNumRatio = 1 ∧ timingInfo.piNum < 40 then 2 else 1 : ℚ) = 1 ∨
      (if gatecnt < 60 ∧ piNumRatio = 1 ∧ timingInfo.piNum < 40 then 2 else 1 : ℚ) = 2 := by
    split
    · exact .inr rfl
    · exact .inl rfl
  obtain ⟨nonneg, bounded⟩ := capacity_between rounding left limited slow speed ratio.1 ratio.2 factor
  rw [if_neg (not_lt.mpr nonneg)]
  obtain ⟨low, shared⟩ := limit_between rounding nonneg bounded several
  generalize truncate (rounding.run (rounding.run (_ / _) / 2)) = limit at low shared ⊢
  refine ⟨_, rfl, ?_⟩
  split
  · next capped =>
      have larger := Int.mul_le_mul_of_nonneg_right capped.2.2.2.le several.le
      exact ⟨by decide, larger.trans shared⟩
  · exact ⟨low, shared⟩

end Call

/-- A faultless evaluation returns the limit of `Timing_function`. -/
theorem checkedTiming_returned {rounding : Rounding} {elapsed gatecnt limit : ℤ} {timingInfo : TimingInfo}
    (returned : checkedTiming rounding elapsed gatecnt timingInfo = .ok limit)
    (undefined : ℤ) : (timingFunction rounding elapsed gatecnt timingInfo undefined).1 = limit := by
  obtain ⟨share, divided, returned⟩ := ok_of_bind returned
  obtain ⟨rest, -, returned⟩ := ok_of_bind returned
  obtain ⟨remaining, time, returned⟩ := ok_of_bind returned
  obtain ⟨nonzero, rfl⟩ := eq_of_divide divided
  obtain ⟨-, -, rfl⟩ := eq_of_checkInt time
  rw [timingFunction]
  by_cases out : remainingTime elapsed gatecnt < 0
  · rw [if_pos out] at returned ⊢
    exact Except.ok.inj returned
  · rw [if_neg out] at returned ⊢
    obtain ⟨scaled, product, returned⟩ := ok_of_bind returned
    obtain ⟨minutes, sixtieth, returned⟩ := ok_of_bind returned
    obtain ⟨divisor, sum, returned⟩ := ok_of_bind returned
    obtain ⟨perSecond, quotient, returned⟩ := ok_of_bind returned
    obtain ⟨half, halved, returned⟩ := ok_of_bind returned
    obtain ⟨levels, added, returned⟩ := ok_of_bind returned
    obtain ⟨patterns, shared, returned⟩ := ok_of_bind returned
    obtain ⟨low, high, rfl⟩ := eq_of_checkInt product
    obtain rfl := eq_of_divideInt sixtieth
    obtain ⟨-, -, rfl⟩ := eq_of_checkInt sum
    obtain rfl := eq_of_divideInt quotient
    obtain rfl := eq_of_divideInt halved
    obtain ⟨-, -, rfl⟩ := eq_of_checkInt added
    obtain ⟨-, rfl⟩ := eq_of_divide shared
    have kept : toInt (timingInfo.patternPerMin * 166) = timingInfo.patternPerMin * 166 :=
      Int.bmod_eq_of_le_mul_two (by omega) (by omega)
    have rest : timingInfo.restPI ≠ 0 := by exact_mod_cast nonzero
    have limit := Except.ok.inj returned
    simp only [upLimit, fullCapacity, capacity, piNumRatio, mag, TimingFunc.perSecond, kept,
      if_neg rest, Option.some.injEq]
    rw [← limit]

/-- Without a fault `Timing_function` returns a limit between zero and the share of eight hundred
millions for each level exactly when something is left, the remaining time is an `int`, and the
rate can be multiplied on `int` or is not used. -/
theorem timing_safe_iff (rounding : Rounding) {elapsed : ℤ} (gatecnt : ℤ) {timingInfo : TimingInfo}
    (call : IsCall elapsed timingInfo) :
    (∃ limit, checkedTiming rounding elapsed gatecnt timingInfo = .ok limit ∧ 0 ≤ limit ∧
      limit ≤ 800000000 / (timingInfo.piNum / 2 + 2)) ↔
    0 < timingInfo.restPI ∧ -2 ^ 31 ≤ remainingTime elapsed gatecnt ∧
      (remainingTime elapsed gatecnt < 0 ∨ timingInfo.patternPerMin * 166 < 2 ^ 31) := by
  have several : 0 < timingInfo.piNum / 2 + 2 := by
    have part := call.part.1
    omega
  constructor
  · rintro ⟨limit, returned, -⟩
    have positive : 0 < timingInfo.restPI := by
      by_contra none
      have zero : timingInfo.restPI = 0 := le_antisymm (not_lt.mp none) (call.part.1.trans call.part.2)
      rw [checkedTiming_zero rounding gatecnt zero] at returned
      cases returned
    have fits : -2 ^ 31 ≤ remainingTime elapsed gatecnt := by
      by_contra late
      rw [checkedTiming_late rounding gatecnt call positive (not_le.mp late)] at returned
      cases returned
    refine ⟨positive, fits, ?_⟩
    by_contra neither
    rw [not_or, not_lt, not_lt] at neither
    rw [checkedTiming_fast rounding gatecnt call positive fits neither.1 neither.2] at returned
    cases returned
  · rintro ⟨positive, fits, out | small⟩
    · exact ⟨0, checkedTiming_out rounding gatecnt call positive fits out, le_rfl,
        Int.ediv_nonneg (by norm_num) several.le⟩
    · by_cases out : remainingTime elapsed gatecnt < 0
      · exact ⟨0, checkedTiming_out rounding gatecnt call positive fits out, le_rfl,
          Int.ediv_nonneg (by norm_num) several.le⟩
      · obtain ⟨limit, returned, nonneg, shared⟩ :=
          checkedTiming_ok rounding gatecnt call positive fits (not_lt.mp out) small
        exact ⟨limit, returned, nonneg, (Int.le_ediv_iff_mul_le several).mpr shared⟩

/-- Two of four real inputs, at the start and with six hundred patterns for each minute. -/
theorem timing_safe_iff_sample :
    ∃ limit, checkedTiming Rounding.exact 0 100 ⟨4, 2, 600⟩ = .ok limit ∧ 0 ≤ limit ∧
      limit ≤ 800000000 / (2 / 2 + 2) :=
  (timing_safe_iff Rounding.exact 100 ⟨by decide, by decide, by decide, by decide⟩).mpr
    ⟨by decide, by decide, .inr (by decide)⟩

/-- A rate of twenty millions is too large for the product, and without real inputs there is
nothing to divide by. -/
theorem timing_unsafe :
    (IsCall 0 ⟨1, 1, 20000000⟩ ∧ ∀ rounding,
      checkedTiming rounding 0 100 ⟨1, 1, 20000000⟩ = .error .intOverflow) ∧
    (IsCall 0 ⟨0, 0, 600⟩ ∧ ∀ rounding,
      checkedTiming rounding 0 100 ⟨0, 0, 600⟩ = .error .divisionByZero) := by
  have fast : IsCall 0 ⟨1, 1, 20000000⟩ := ⟨by decide, by decide, by decide, by decide⟩
  have empty : IsCall 0 ⟨0, 0, 600⟩ := ⟨by decide, by decide, by decide, by decide⟩
  refine ⟨⟨fast, fun rounding => ?_⟩, ⟨empty, fun rounding => ?_⟩⟩
  · exact checkedTiming_fast rounding 100 fast (by decide) (by decide) (by decide) (by decide)
  · exact checkedTiming_zero rounding 100 rfl

end LogicRegression.TimingFunc
