/-
This file embeds the time budget of `TimingFunc.cpp`; the rounding of its doubles is a parameter.
-/

import LogicRegression.Library.Binary

namespace LogicRegression.TimingFunc

open Binary

/-- The three entries of `timing_info`: the real inputs of the outputs that are left, the real
inputs of this output and the patterns for each minute. -/
structure TimingInfo where
  restPI : ℤ
  piNum : ℤ
  patternPerMin : ℤ
  deriving DecidableEq

/-- The conversion of a floating-point number to an integer drops the fraction. -/
def truncate (value : ℚ) : ℤ := if 0 ≤ value then ⌊value⌋ else ⌈value⌉

/-- The rounding of an exact result to a `double`: it keeps the order, and the halves of the
integers up to `2 ^ 53` are not changed. -/
structure Rounding where
  run : ℚ → ℚ
  mono : ∀ low high, low ≤ high → run low ≤ run high
  half : ∀ k : ℤ, |k| ≤ 2 ^ 53 → run (k / 2) = k / 2

/-- Rounding keeps the sign. -/
theorem Rounding.nonneg (rounding : Rounding) {value : ℚ} (nonneg : 0 ≤ value) :
    0 ≤ rounding.run value := by
  have zero := rounding.half 0 (by norm_num)
  rw [Int.cast_zero, zero_div] at zero
  exact zero ▸ rounding.mono 0 value nonneg

/-- Exact numbers are not rounded. -/
def Rounding.exact : Rounding := ⟨id, fun _ _ ordered => ordered, fun _ _ => rfl⟩

/-- The share `PI_num_ratio` is no number when nothing is left. -/
def piNumRatio (rounding : Rounding) (timingInfo : TimingInfo) : Option ℚ :=
  if timingInfo.restPI = 0 then none
  else some (rounding.run (timingInfo.piNum / timingInfo.restPI))

def remainingTime (elapsed gatecnt : ℤ) : ℤ :=
  if gatecnt > 200 then 2000 - elapsed else 2500 - elapsed

def mag (rounding : Rounding) (gatecnt : ℤ) (timingInfo : TimingInfo) : ℚ :=
  if gatecnt < 60 ∧ piNumRatio rounding timingInfo = some 1 ∧ timingInfo.piNum < 40 then 2 else 1

/-- The factor for one second is computed on `int`. -/
def perSecond (patternPerMin : ℤ) : ℤ :=
  (toInt (patternPerMin * 166)).tdiv (patternPerMin.tdiv 60 + 10000)

/-- The number of patterns that fit the time.
The conversion of a share that is no number gives an arbitrary integer. -/
def capacity (rounding : Rounding) (elapsed gatecnt : ℤ) (timingInfo : TimingInfo)
    (undefined : ℤ) : ℤ :=
  match piNumRatio rounding timingInfo with
  | some ratio =>
      truncate (rounding.run (rounding.run (remainingTime elapsed gatecnt * ratio) *
        rounding.run (perSecond timingInfo.patternPerMin * mag rounding gatecnt timingInfo)))
  | none => undefined

/-- A negative number is taken as an overflow and replaced. -/
def fullCapacity (rounding : Rounding) (elapsed gatecnt : ℤ) (timingInfo : TimingInfo)
    (undefined : ℤ) : ℤ :=
  if capacity rounding elapsed gatecnt timingInfo undefined < 0 then 2000000000
  else capacity rounding elapsed gatecnt timingInfo undefined

/-- The limit for a capacity: four fifths of it, shared by the levels and halved. -/
def upLimit (rounding : Rounding) (fullCapacity : ℤ) (timingInfo : TimingInfo) : ℤ :=
  let limit := truncate (rounding.run (rounding.run (rounding.run (fullCapacity *
    rounding.run (4 / 5)) / (timingInfo.piNum.tdiv 2 + 2 : ℤ)) / 2))
  if piNumRatio rounding timingInfo = some 1 ∧ 69 < timingInfo.piNum ∧ timingInfo.piNum < 72 ∧
      110000 < limit then 110000
  else limit

/-- `Timing_function` returns the limit and takes this output off the rest. -/
def timingFunction (rounding : Rounding) (elapsed gatecnt : ℤ) (timingInfo : TimingInfo)
    (undefined : ℤ) : ℤ × TimingInfo :=
  (if remainingTime elapsed gatecnt < 0 then 0
    else upLimit rounding (fullCapacity rounding elapsed gatecnt timingInfo undefined) timingInfo,
    { timingInfo with restPI := timingInfo.restPI - timingInfo.piNum })

section Checked

/-- The two ways in which the evaluation leaves the meaning of its operators. -/
inductive Fault where
  | divisionByZero
  | intOverflow
  deriving DecidableEq

/-- An `int` result must fit its 32 bits. -/
def checkInt (value : ℤ) : Except Fault ℤ :=
  if -2 ^ 31 ≤ value ∧ value < 2 ^ 31 then .ok value else .error .intOverflow

/-- The exact quotient of two floating-point numbers. -/
def divide (dividend divisor : ℚ) : Except Fault ℚ :=
  if divisor = 0 then .error .divisionByZero else .ok (dividend / divisor)

def divideInt (dividend divisor : ℤ) : Except Fault ℤ :=
  if divisor = 0 then .error .divisionByZero else checkInt (dividend.tdiv divisor)

/-- `Timing_function` with a check of each division and of each `int` result.
The conversion of `difftime` to the variable `remaining_time` is one of them. -/
def checkedTiming (rounding : Rounding) (elapsed gatecnt : ℤ) (timingInfo : TimingInfo) :
    Except Fault ℤ := do
  let share ← divide timingInfo.piNum timingInfo.restPI
  let piNumRatio := rounding.run share
  let _ ← checkInt (timingInfo.restPI - timingInfo.piNum)
  let remaining ← checkInt (remainingTime elapsed gatecnt)
  let mag : ℚ := if gatecnt < 60 ∧ piNumRatio = 1 ∧ timingInfo.piNum < 40 then 2 else 1
  if remaining < 0 then return 0
  let scaled ← checkInt (timingInfo.patternPerMin * 166)
  let minutes ← divideInt timingInfo.patternPerMin 60
  let divisor ← checkInt (minutes + 10000)
  let perSecond ← divideInt scaled divisor
  let capacity := truncate (rounding.run
    (rounding.run (remaining * piNumRatio) * rounding.run (perSecond * mag)))
  let fullCapacity := if capacity < 0 then 2000000000 else capacity
  let half ← divideInt timingInfo.piNum 2
  let levels ← checkInt (half + 2)
  let patterns ← divide (rounding.run (fullCapacity * rounding.run (4 / 5))) levels
  let limit := truncate (rounding.run (rounding.run patterns / 2))
  return if piNumRatio = 1 ∧ 69 < timingInfo.piNum ∧ timingInfo.piNum < 72 ∧ 110000 < limit then
    110000 else limit

end Checked

end LogicRegression.TimingFunc
