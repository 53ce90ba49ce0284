import LogicRegression.Proof.CreatePattern.Closure
import LogicRegression.Proof.CreatePattern.Levels

namespace LogicRegression.FixNetwork

variable {inputNum : ℕ} {realPI : List (Fin inputNum)} {patternUpLimit : ℤ} {rand : ℕ → ℕ}
  {count : ℕ}

section Rounds

/-- The start of a round of one of the two random loops. -/
structure Round (inputNum : ℕ) where
  extreme : Bool
  i : ℤ
  count : ℕ
  patterns : Patterns inputNum

/-- The two loops differ in the bits that they take from a random number. -/
def Round.bit (round : Round inputNum) : ℕ → Bool := if round.extreme then extremeBit else plainBit

/-- The vector that a round draws. -/
def Round.drawn (realPI : List (Fin inputNum)) (rand : ℕ → ℕ) (round : Round inputNum) :
    Fin inputNum → Bool := draw round.bit realPI rand round.count

/-- When the key of the drawn vector is known the next round has the same `i`. -/
def Round.next (realPI : List (Fin inputNum)) (rand : ℕ → ℕ) (round : Round inputNum) :
    Round inputNum :=
  let z := round.drawn realPI rand
  ⟨round.extreme, if toStr z ∈ round.patterns.ppp then round.i else round.i + 1,
    round.count + realPI.length, round.patterns.recordPair z⟩

/-- The rounds that the two loops reach from a state. -/
inductive Reached (realPI : List (Fin inputNum)) (patternUpLimit : ℤ) (rand : ℕ → ℕ) (count : ℕ)
    (start : Patterns inputNum) : Round inputNum → Prop
  | extreme : Reached realPI patternUpLimit rand count start ⟨true, 0, count, start⟩
  | next {round : Round inputNum} : Reached realPI patternUpLimit rand count start round →
      round.i < patternUpLimit →
      Reached realPI patternUpLimit rand count start (round.next realPI rand)
  | plain {i : ℤ} {later : ℕ} {s : Patterns inputNum} :
      Reached realPI patternUpLimit rand count start ⟨true, i, later, s⟩ → patternUpLimit ≤ i →
      Reached realPI patternUpLimit rand count start ⟨false, 0, later, s⟩

/-- The rounds that a call of `CreatePattern` reaches when its levels have ended. -/
def RoundOfCall (realPI : List (Fin inputNum)) (patternUpLimit : ℤ) (uninit : ℕ → ℤ)
    (rand : ℕ → ℕ) (count : ℕ) (round : Round inputNum) : Prop :=
  ∃ fuel found, levels fuel realPI.length patternUpLimit realPI uninit (realPI.length / 2) 0 0 false
      Patterns.empty = some found ∧
    Reached realPI patternUpLimit rand count
      ((found.flatMap Level.visited).getLastD Patterns.empty) round

variable {uninit : ℕ → ℤ}

/-- A loop that ends goes through reached rounds. -/
theorem randomLoop_reached {start : Patterns inputNum} {round : Round inputNum}
    (reached : Reached realPI patternUpLimit rand count start round) {fuel used : ℕ}
    {visited : List (Patterns inputNum)}
    (returned : randomLoop round.bit patternUpLimit realPI rand fuel round.i round.count
      round.patterns = some (visited, used)) :
    ∃ i, patternUpLimit ≤ i ∧ Reached realPI patternUpLimit rand count start
      ⟨round.extreme, i, used, visited.getLastD round.patterns⟩ := by
  induction fuel generalizing round visited with
  | zero => cases returned
  | succ fuel ih =>
      rw [randomLoop] at returned
      split at returned
      · next below =>
          obtain ⟨⟨later, last⟩, rest, same⟩ := Option.map_eq_some_iff.mp returned
          obtain ⟨rfl, rfl⟩ := Prod.mk.inj same
          rw [List.getLastD_cons]
          have later := reached.next below
          exact ih later rest
      · next full =>
          obtain ⟨rfl, rfl⟩ := Prod.mk.inj (Option.some.inj returned)
          exact ⟨round.i, not_lt.mp full, reached⟩

/-- A call that returns has reached the end of the second loop. -/
theorem createPattern_reached {fuel used : ℕ} {run : Run inputNum}
    (returned : createPattern fuel realPI.length 0 (realPI.length / 2) patternUpLimit realPI uninit
      rand count = some (run, used)) :
    ∃ i, patternUpLimit ≤ i ∧ RoundOfCall realPI patternUpLimit uninit rand count
      ⟨false, i, used, run.final⟩ := by
  obtain ⟨levelled, middle, first, second⟩ := createPattern_parts returned
  have start : Reached realPI patternUpLimit rand count run.enumerated
      ⟨true, 0, count, run.enumerated⟩ := .extreme
  obtain ⟨i, full, reached⟩ := randomLoop_reached start first
  obtain ⟨j, done, final⟩ := randomLoop_reached (reached.plain full) second
  use j, done, fuel, run.levels, levelled
  rw [Run.final, Run.visited, getLastD_append, getLastD_append]
  exact final

/-- With more room a random loop has the same result. -/
theorem randomLoop_mono {bit : ℕ → Bool} {fuel more : ℕ} (grown : fuel ≤ more) {i : ℤ} {later : ℕ}
    {s : Patterns inputNum} {result : List (Patterns inputNum) × ℕ}
    (returned : randomLoop bit patternUpLimit realPI rand fuel i later s = some result) :
    randomLoop bit patternUpLimit realPI rand more i later s = some result := by
  induction fuel generalizing more i later s result with
  | zero => cases returned
  | succ fuel ih =>
      obtain ⟨more, rfl⟩ := Nat.exists_eq_succ_of_ne_zero (Nat.ne_of_gt (Nat.zero_lt_of_lt grown))
      rw [randomLoop] at returned ⊢
      by_cases below : i < patternUpLimit
      · rw [if_pos below] at returned ⊢
        obtain ⟨rest, ended, rfl⟩ := Option.map_eq_some_iff.mp returned
        simp only [ih (Nat.le_of_succ_le_succ grown) ended, Option.map_some]
      · rwa [if_neg below] at returned ⊢

/-- With more room a call has the same result. -/
theorem createPattern_mono {fuel more : ℕ} (grown : fuel ≤ more) {result : Run inputNum × ℕ}
    (returned : createPattern fuel realPI.length 0 (realPI.length / 2) patternUpLimit realPI uninit
      rand count = some result) :
    createPattern more realPI.length 0 (realPI.length / 2) patternUpLimit realPI uninit rand count =
      some result := by
  simp only [createPattern, Option.bind_eq_bind, Option.bind_eq_some_iff, Option.pure_def,
    Option.some.injEq] at returned ⊢
  obtain ⟨found, levelled, extreme, first, plain, second, rfl⟩ := returned
  exact ⟨found, levels_mono _ _ _ grown levelled, extreme, randomLoop_mono grown first, plain,
    randomLoop_mono grown second, rfl⟩

/-- The random loops end from a round: its own loop does, and after the first loop the second one. -/
def Round.Ends (realPI : List (Fin inputNum)) (patternUpLimit : ℤ) (rand : ℕ → ℕ)
    (round : Round inputNum) : Prop :=
  ∃ fuel visited used, randomLoop round.bit patternUpLimit realPI rand fuel round.i round.count
      round.patterns = some (visited, used) ∧
    (round.extreme = true → ∃ more, (randomLoop plainBit patternUpLimit realPI rand more 0 used
      (visited.getLastD round.patterns)).isSome)

/-- From the limit on a loop ends at once. -/
theorem Round.ends_of_full {round : Round inputNum} (full : patternUpLimit ≤ round.i)
    (later : round.extreme = true →
      Ends realPI patternUpLimit rand ⟨false, 0, round.count, round.patterns⟩) :
    round.Ends realPI patternUpLimit rand := by
  refine ⟨1, [], round.count, by rw [randomLoop, if_neg full.not_gt], fun extreme => ?_⟩
  obtain ⟨fuel, visited, used, returned, -⟩ := later extreme
  exact ⟨fuel, Option.isSome_iff_exists.mpr ⟨_, returned⟩⟩

/-- When the loops end from a reached round they end from the start. -/
theorem Reached.ends {start : Patterns inputNum} {round : Round inputNum}
    (reached : Reached realPI patternUpLimit rand count start round)
    (ends : round.Ends realPI patternUpLimit rand) :
    Round.Ends realPI patternUpLimit rand ⟨true, 0, count, start⟩ := by
  induction reached with
  | extreme => exact ends
  | @next round reached below ih =>
      obtain ⟨fuel, visited, used, returned, later⟩ := ends
      apply ih
      refine ⟨fuel + 1, (round.next realPI rand).patterns :: visited, used, ?_, ?_⟩
      · rw [randomLoop, if_pos below]
        exact congrArg (Option.map _) returned
      · rw [List.getLastD_cons]
        exact later
  | plain reached full ih => exact ih (Round.ends_of_full full fun _ => ends)

/-- A call returns with enough room exactly when it reaches the limit in its second random loop: only
a random loop can keep it from ending. -/
theorem createPattern_ends_iff :
    (∃ fuel result, createPattern fuel realPI.length 0 (realPI.length / 2) patternUpLimit realPI
        uninit rand count = some result) ↔
      ∃ round, RoundOfCall realPI patternUpLimit uninit rand count round ∧ round.extreme = false ∧
        patternUpLimit ≤ round.i := by
  constructor
  · rintro ⟨fuel, ⟨run, used⟩, returned⟩
    obtain ⟨i, full, reached⟩ := createPattern_reached returned
    exact ⟨_, reached, rfl, full⟩
  · rintro ⟨round, ⟨fuel, found, levelled, reached⟩, plain, full⟩
    have ends := reached.ends (Round.ends_of_full full fun extreme => by
      rw [plain] at extreme
      cases extreme)
    obtain ⟨first, visited, used, returned, later⟩ := ends
    obtain ⟨second, ended⟩ := later rfl
    obtain ⟨⟨last, final⟩, finished⟩ := Option.isSome_iff_exists.mp ended
    let most := max fuel (max first second)
    refine ⟨most, (⟨found, visited, last⟩, final), ?_⟩
    simp only [createPattern, Option.bind_eq_bind, Option.bind_eq_some_iff, Option.pure_def,
      Option.some.injEq]
    exact ⟨found, levels_mono _ _ _ (le_max_left _ _) levelled, (visited, used),
      randomLoop_mono ((le_max_left _ _).trans (le_max_right _ _)) returned, (last, final),
      randomLoop_mono ((le_max_right _ _).trans (le_max_right _ _)) finished, rfl⟩

end Rounds

section Closed

/-- Every round that is reached keeps the list closed, also in a call that never returns. -/
theorem Reached.closed (positive : 1 ≤ inputNum) {start : Patterns inputNum} (closed : Closed start)
    {round : Round inputNum} (reached : Reached realPI patternUpLimit rand count start round) :
    Closed round.patterns := by
  induction reached with
  | extreme => exact closed
  | next reached below ih => exact ih.recordPair positive
  | plain reached full ih => exact ih

/-- The states of the levels are closed. -/
theorem levels_closed {fuel : ℕ} {uninit : ℕ → ℤ} {found : List (Level inputNum)}
    (returned : levels fuel realPI.length patternUpLimit realPI uninit (realPI.length / 2) 0 0 false
      Patterns.empty = some found) : ∀ s ∈ found.flatMap Level.visited, Closed s :=
  levels_visited (fun twoOrder _ index closed => closed.printRes realPI twoOrder index)
    empty_closed returned

/-- The levels end, and every state after a `printRes` call and at every round of the random loops
has distinct patterns, their keys and their complements. When the call returns, the random loops have
added exactly four vectors for each unit of the limit. -/
theorem createPattern_closed (positive : 1 ≤ inputNum) (nonneg : 0 ≤ patternUpLimit)
    (realPI : List (Fin inputNum)) (uninit : ℕ → ℤ) (rand : ℕ → ℕ) (count : ℕ) :
    (∃ enough, ∀ fuel ≥ enough, ∃ found, levels fuel realPI.length patternUpLimit realPI uninit
        (realPI.length / 2) 0 0 false Patterns.empty = some found ∧
      ∀ s ∈ found.flatMap Level.visited, Closed s) ∧
    (∀ round, RoundOfCall realPI patternUpLimit uninit rand count round → Closed round.patterns) ∧
    ∀ fuel run used, createPattern fuel realPI.length 0 (realPI.length / 2) patternUpLimit realPI
        uninit rand count = some (run, used) →
      (∀ s ∈ run.visited, Closed s) ∧
        (run.final.iogenInputPatterns.length : ℤ) =
          run.enumerated.iogenInputPatterns.length + 4 * patternUpLimit := by
  refine ⟨⟨2 ^ realPI.length, fun fuel enough => ?_⟩, fun round reached => ?_,
    fun fuel run used returned => ?_⟩
  · have run := levels_run patternUpLimit uninit enough
    exact ⟨_, run, levels_closed run⟩
  · obtain ⟨fuel, found, levelled, reached⟩ := reached
    exact reached.closed positive (getLastD_of_all empty_closed (levels_closed levelled))
  · obtain ⟨levelled, middle, first, second⟩ := createPattern_parts returned
    have printed : ∀ s ∈ run.printed, Closed s := levels_closed levelled
    have enumerated : Closed run.enumerated := getLastD_of_all empty_closed printed
    have extreme := randomLoop_closed positive enumerated first
    have plain := randomLoop_closed positive (getLastD_of_all enumerated extreme) second
    constructor
    · intro s listed
      rcases List.mem_append.mp listed with before | last
      · rcases List.mem_append.mp before with level | random
        · exact printed s level
        · exact extreme s random
      · exact plain s last
    · have firstLength := randomLoop_length first
      have secondLength := randomLoop_length second
      have final : run.final = run.plain.getLastD (run.extreme.getLastD run.enumerated) := by
        rw [Run.final, Run.visited, getLastD_append, getLastD_append]
        rfl
      rw [final, secondLength, firstLength]
      push_cast
      omega

theorem createPattern_closed_sample :
    (∃ round, RoundOfCall sampleRealPI 1 (fun _ => 0) sampleRand 0 round ∧ Closed round.patterns) ∧
      ∃ run used, sampleCall = some (run, used) ∧
        (run.final.iogenInputPatterns.length : ℤ) =
          run.enumerated.iogenInputPatterns.length + 4 * 1 := by
  have positive : 1 ≤ 3 := by decide
  have nonneg : (0 : ℤ) ≤ 1 := by decide
  obtain ⟨levelled, rounds, returns⟩ :=
    createPattern_closed positive nonneg sampleRealPI (fun _ => 0) sampleRand 0
  obtain ⟨enough, ends⟩ := levelled
  obtain ⟨found, ended, -⟩ := ends enough le_rfl
  obtain ⟨⟨run, used⟩, returned⟩ := Option.isSome_iff_exists.mp sampleCall_returns
  have first : RoundOfCall sampleRealPI 1 (fun _ => 0) sampleRand 0 _ :=
    ⟨enough, found, ended, .extreme⟩
  exact ⟨⟨_, first, rounds _ first⟩, run, used, returned, (returns 20 run used returned).2⟩

end Closed

end LogicRegression.FixNetwork
