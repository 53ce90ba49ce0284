import LogicRegression.Proof.Minimize.Linear

namespace LogicRegression.Minimize

open SatOpt

variable {n : ℕ} {clauses : List (List (Lit n))} {current pat high low : List (Lit n)}

section Halves

/-- The rounds of the dividing loop move the end of a vector to the front of the other. -/
theorem moveLast_iterate (high moved low : List (Lit n)) :
    moveLast^[moved.length] (high ++ moved, low) = (high, moved ++ low) := by
  induction moved using List.reverseRecOn generalizing low with
  | nil => simp
  | append_singleton moved l ih =>
      have last : (high ++ (moved ++ [l])).getLast? = some l := by simp
      have popped : (high ++ (moved ++ [l])).dropLast = high ++ moved := by
        simp [← List.append_assoc]
      have step : moveLast (high ++ (moved ++ [l]), low) = (high ++ moved, l :: low) := by
        simp only [moveLast, last, popped]
      rw [List.length_append, List.length_singleton, Function.iterate_succ_apply, step, ih,
        List.append_assoc, List.singleton_append]

/-- The halves make up the pattern, and the low half has the smaller part. -/
structure Halved (pat high low : List (Lit n)) : Prop where
  whole : high ++ low = pat
  size : low.length = pat.length / 2

theorem divide_halved (pat : List (Lit n)) : Halved pat (divide pat).1 (divide pat).2 := by
  have size : (pat.drop (pat.length - pat.length / 2)).length = pat.length / 2 := by
    rw [List.length_drop]
    omega
  have halves := moveLast_iterate (pat.take (pat.length - pat.length / 2))
    (pat.drop (pat.length - pat.length / 2)) []
  rw [size, List.take_append_drop, List.append_nil] at halves
  change divide pat = _ at halves
  rw [halves]
  exact ⟨List.take_append_drop _ _, size⟩

/-- A pattern of several literals has two shorter halves that are not empty. -/
theorem Halved.shorter (halved : Halved pat high low) (several : 2 ≤ pat.length) :
    0 < high.length ∧ high.length < pat.length ∧ 0 < low.length ∧ low.length < pat.length := by
  have total := congrArg List.length halved.whole
  rw [List.length_append, halved.size] at total
  have size := halved.size
  omega

theorem exists_halves (nonempty : pat ≠ []) (single : pat.length ≠ 1) :
    ∃ high low, divide pat = (high, low) ∧ high ++ low = pat ∧ high ≠ [] ∧ low ≠ [] ∧
      high.length < pat.length ∧ low.length < pat.length := by
  have halved := divide_halved pat
  have several : 2 ≤ pat.length := by
    have positive := List.length_pos_of_ne_nil nonempty
    omega
  obtain ⟨highPositive, highShort, lowPositive, lowShort⟩ := halved.shorter several
  exact ⟨_, _, rfl, halved.whole, List.ne_nil_of_length_pos highPositive,
    List.ne_nil_of_length_pos lowPositive, highShort, lowShort⟩

end Halves

section Calls

variable {sort : AscendingSort} {inputOrder : InputOrder} {fuel : ℕ} {result : List (Lit n)}
  {self : Call n}

/-- One literal is needed exactly when the assumptions alone are satisfiable. -/
theorem minimize_single {method : ℤ} (recursive : method ≠ 1 ∧ method ≠ 4) (l : Lit n) :
    minimize sort inputOrder method (fuel + 1) ⟨clauses, current⟩ [l] result =
      some ⟨⟨clauses, current⟩, if Satisfiable clauses current then [l] else result⟩ := by
  rw [minimize, minimizeStep, if_neg recursive.1, if_neg recursive.2,
    if_pos List.length_singleton]
  simp only [Solver.solve, decide_eq_true_eq]

/-- The three cases of method 2. -/
theorem divideAndConquer_eq :
    divideAndConquer self ⟨clauses, current⟩ high low result =
      if ¬ Satisfiable clauses (current ++ low) then self ⟨clauses, current⟩ low result
      else if ¬ Satisfiable clauses (current ++ high) then self ⟨clauses, current⟩ high result
      else (self ⟨clauses, current ++ low⟩ high []).bind fun solHigh =>
        (self (solHigh.soff.copyFrom (current ++ solHigh.result)) low []).bind fun solLow =>
          some ⟨solLow.soff, solHigh.result ++ solLow.result⟩ := by
  by_cases lowSat : Satisfiable clauses (current ++ low)
  · by_cases highSat : Satisfiable clauses (current ++ high)
    · simp only [divideAndConquer, solveA, Solver.solve, Solver.copyFrom, lowSat, highSat,
        decide_true, Bool.not_true, not_true_eq_false, if_false]
      rfl
    · simp [divideAndConquer, solveA, Solver.solve, Solver.copyFrom, lowSat, highSat]
  · simp [divideAndConquer, solveA, Solver.solve, Solver.copyFrom, lowSat]

/-- A search goes on with what the call in a context returns. -/
theorem tryContext_of_call {half context : List (Lit n)} {search : Search n} {state : State n}
    (called : self (search.state.soff.copyFrom context) half search.state.result = some state) :
    tryContext self half search context =
      some (if state.result.length ≤ search.mini then ⟨state, state.result, state.result.length⟩
        else { search with state := state }) := by
  rw [tryContext, called]
  by_cases small : state.result.length ≤ search.mini
  · rw [if_pos small]
    exact if_pos small
  · rw [if_neg small]
    exact if_neg small

/-- The two cases of method 3. -/
theorem exhaustive_eq :
    exhaustive self ⟨clauses, current⟩ high low result =
      if ¬ Satisfiable clauses (current ++ low) then self ⟨clauses, current⟩ low result
      else (smallest self high current low ⟨⟨clauses, current⟩, result⟩).bind fun solHigh =>
        (smallest self low current (reorder solHigh.sol high) solHigh.state).bind fun solLow =>
          some ⟨solLow.state.soff, solHigh.sol ++ solLow.sol⟩ := by
  by_cases lowSat : Satisfiable clauses (current ++ low)
  · simp only [exhaustive, solveA, Solver.solve, Solver.copyFrom, lowSat, decide_true,
      Bool.not_true, not_true_eq_false, if_false]
    rfl
  · simp [exhaustive, solveA, Solver.solve, Solver.copyFrom, lowSat]

theorem minimize_two (long : pat.length ≠ 1) :
    minimize sort inputOrder 2 (fuel + 1) ⟨clauses, current⟩ pat result =
      divideAndConquer (minimize sort inputOrder 2 fuel) ⟨clauses, current⟩ (divide pat).1
        (divide pat).2 result := by
  rw [minimize, minimizeStep, if_neg (by decide), if_neg (by decide), if_neg long, if_pos rfl]

theorem minimize_three (long : pat.length ≠ 1) :
    minimize sort inputOrder 3 (fuel + 1) ⟨clauses, current⟩ pat result =
      exhaustive (minimize sort inputOrder 3 fuel) ⟨clauses, current⟩ (divide pat).1
        (divide pat).2 result := by
  rw [minimize, minimizeStep, if_neg (by decide), if_neg (by decide), if_neg long,
    if_neg (by decide), if_pos rfl]

end Calls

/-- Method 2 returns a core beside the stored assumptions, in the order of the pattern. -/
theorem minimize_two_core (sort : AscendingSort) (inputOrder : InputOrder) {fuel : ℕ}
    (enough : pat.length ≤ fuel) (nonempty : pat ≠ [])
    (unsatisfiable : ¬ Satisfiable clauses (current ++ pat)) :
    ∃ assumptions core,
      minimize sort inputOrder 2 fuel ⟨clauses, current⟩ pat [] =
        some ⟨⟨clauses, assumptions⟩, core⟩ ∧
      core.Sublist pat ∧ (refutation clauses).IsCore current core := by
  induction fuel generalizing current pat with
  | zero => exact absurd (List.eq_nil_of_length_eq_zero (by omega)) nonempty
  | succ fuel ih =>
      by_cases single : pat.length = 1
      · obtain ⟨l, rfl⟩ := List.length_eq_one_iff.mp single
        rw [minimize_single (by decide)]
        by_cases needed : Satisfiable clauses current
        · rw [if_pos needed]
          exact ⟨current, [l], rfl, .refl _, .singleton (not_not.mpr needed) unsatisfiable⟩
        · rw [if_neg needed]
          exact ⟨current, [], rfl, List.nil_sublist _, .nil needed⟩
      · obtain ⟨high, low, divided, rfl, highNonempty, lowNonempty, highShort, lowShort⟩ :=
          exists_halves nonempty single
        rw [minimize_two single, divideAndConquer_eq, divided]
        split
        · next lowUnsat =>
            obtain ⟨assumptions, core, returned, sublist, isCore⟩ :=
              ih (by omega) lowNonempty lowUnsat
            exact ⟨assumptions, core, returned, sublist.trans (List.sublist_append_right _ _), isCore⟩
        · split
          · next highUnsat =>
              obtain ⟨assumptions, core, returned, sublist, isCore⟩ :=
                ih (by omega) highNonempty highUnsat
              exact ⟨assumptions, core, returned, sublist.trans (List.sublist_append_left _ _),
                isCore⟩
          · -- The first half is minimal beside all of the second, and so beside what is kept of it.
            have beside : ¬ Satisfiable clauses (current ++ low ++ high) := fun satisfiable =>
              unsatisfiable (satisfiable.mono (by simp))
            obtain ⟨_, solHigh, first, highSublist, highCore⟩ :=
              ih (by omega) highNonempty beside
            have left : ¬ Satisfiable clauses (current ++ solHigh ++ low) := fun satisfiable =>
              highCore.holds (satisfiable.mono (by simp))
            obtain ⟨assumptions, solLow, second, lowSublist, lowCore⟩ :=
              ih (by omega) lowNonempty left
            rw [first, Option.bind_some, Solver.copyFrom, second, Option.bind_some]
            exact ⟨assumptions, solHigh ++ solLow, rfl, highSublist.append lowSublist,
              highCore.append lowSublist.subset lowCore⟩

/-- Method 2 terminates with a minimal core that is a subsequence of the pattern. -/
theorem divide_minimal (sort : AscendingSort) (inputOrder : InputOrder) (soff : Solver n)
    (pat : List (Lit n)) (nonempty : pat ≠ [])
    (unsatisfiable : ¬ Satisfiable soff.clauses (soff.assumptions ++ pat)) :
    ∃ fuel final, minimize sort inputOrder 2 fuel soff pat [] = some final ∧
      final.result.Sublist pat ∧
      MinimalCore soff.clauses soff.assumptions pat final.result := by
  obtain ⟨assumptions, core, returned, sublist, isCore⟩ :=
    minimize_two_core sort inputOrder le_rfl nonempty unsatisfiable
  exact ⟨pat.length, _, returned, sublist, .of_isCore sublist.subset isCore⟩

theorem divide_minimal_sample : ∃ fuel final,
    minimize ascendingSort [] 2 fuel ⟨sampleFormula, []⟩ sampleLits [] = some final ∧
      final.result.Sublist sampleLits ∧ MinimalCore sampleFormula [] sampleLits final.result :=
  divide_minimal ascendingSort [] ⟨sampleFormula, []⟩ sampleLits (by decide)
    sampleLits_unsatisfiable

end LogicRegression.Minimize
