import LogicRegression.Library.Fold
import LogicRegression.Proof.Minimize.Divide

namespace LogicRegression.Minimize

open SatOpt

variable {n : ℕ} {clauses : List (List (Lit n))} {current high low pat result : List (Lit n)}
  {soff : Solver n} {final : State n} {self other : Call n} {sort : AscendingSort}
  {inputOrder : InputOrder} {method : ℤ} {fuel : ℕ}

/-- The recursion of `minimize` in which a call on a pattern that is not shorter has no result. -/
def shrinking (sort : AscendingSort) (inputOrder : InputOrder) (method : ℤ) : ℕ → Call n
  | 0 => fun _ _ _ => none
  | fuel + 1 => fun soff pat result =>
      minimizeStep (fun inner part answer =>
          if part.length < pat.length then shrinking sort inputOrder method fuel inner part answer
          else none)
        sort inputOrder method soff pat result

/-- All calls are on strictly shorter patterns, and the recursion ends with some result. -/
def Terminates (sort : AscendingSort) (inputOrder : InputOrder) (method : ℤ) (soff : Solver n)
    (pat result : List (Lit n)) : Prop :=
  ∃ fuel final, shrinking sort inputOrder method fuel soff pat result = some final ∧
    minimize sort inputOrder method fuel soff pat result = some final

/-- The second call returns whatever the first one returns. -/
def Extends (self other : Call n) : Prop :=
  ∀ soff pat result final, self soff pat result = some final → other soff pat result = some final

section Extension

variable (more : Extends self other)
include more

theorem divideAndConquer_mono
    (returned : divideAndConquer self soff high low result = some final) :
    divideAndConquer other soff high low result = some final := by
  obtain ⟨clauses, current⟩ := soff
  rw [divideAndConquer_eq] at returned ⊢
  split
  · next unsat =>
      rw [if_pos unsat] at returned
      exact more _ _ _ _ returned
  · next sat =>
      rw [if_neg sat] at returned
      split
      · next unsat =>
          rw [if_pos unsat] at returned
          exact more _ _ _ _ returned
      · next satisfiable =>
          rw [if_neg satisfiable] at returned
          obtain ⟨solHigh, first, returned⟩ := Option.bind_eq_some_iff.mp returned
          obtain ⟨solLow, second, same⟩ := Option.bind_eq_some_iff.mp returned
          rw [more _ _ _ _ first, Option.bind_some, more _ _ _ _ second]
          exact same

theorem smallest_mono {half lits : List (Lit n)} {state : State n} {search : Search n}
    (returned : smallest self half current lits state = some search) :
    smallest other half current lits state = some search := by
  apply Fold.foldlM_mono _ returned
  intro before context after step
  obtain ⟨state, called, rest⟩ := Option.bind_eq_some_iff.mp step
  exact Option.bind_eq_some_iff.mpr ⟨state, more _ _ _ _ called, rest⟩

theorem exhaustive_mono (returned : exhaustive self soff high low result = some final) :
    exhaustive other soff high low result = some final := by
  obtain ⟨clauses, current⟩ := soff
  rw [exhaustive_eq] at returned ⊢
  split
  · next unsat =>
      rw [if_pos unsat] at returned
      exact more _ _ _ _ returned
  · next sat =>
      rw [if_neg sat] at returned
      obtain ⟨solHigh, first, returned⟩ := Option.bind_eq_some_iff.mp returned
      obtain ⟨solLow, second, same⟩ := Option.bind_eq_some_iff.mp returned
      rw [smallest_mono more first, Option.bind_some, smallest_mono more second]
      exact same

/-- The body returns at least as often as its recursive calls. -/
theorem minimizeStep_mono
    (returned : minimizeStep self sort inputOrder method soff pat result = some final) :
    minimizeStep other sort inputOrder method soff pat result = some final := by
  unfold minimizeStep at returned ⊢
  by_cases linear : method = 1
  · rwa [if_pos linear] at returned ⊢
  · rw [if_neg linear] at returned ⊢
    by_cases ordered : method = 4
    · rwa [if_pos ordered] at returned ⊢
    · rw [if_neg ordered] at returned ⊢
      by_cases single : pat.length = 1
      · rwa [if_pos single] at returned ⊢
      · rw [if_neg single] at returned ⊢
        by_cases divided : method = 2
        · rw [if_pos divided] at returned ⊢
          exact divideAndConquer_mono more returned
        · rw [if_neg divided] at returned ⊢
          by_cases searched : method = 3
          · rw [if_pos searched] at returned ⊢
            exact exhaustive_mono more returned
          · rwa [if_neg searched] at returned ⊢

end Extension

/-- What the guarded recursion returns is what `minimize` returns. -/
theorem shrinking_extends (fuel : ℕ) :
    Extends (n := n) (shrinking sort inputOrder method fuel)
      (minimize sort inputOrder method fuel) := by
  induction fuel with
  | zero => exact fun _ _ _ _ returned => returned
  | succ fuel ih =>
      intro soff pat result final returned
      apply minimizeStep_mono _ returned
      intro inner part answer last guarded
      dsimp only at guarded
      split at guarded
      · exact ih _ _ _ _ guarded
      · cases guarded

/-- A deeper recursion returns the same. -/
theorem minimize_extends (fuel : ℕ) :
    Extends (n := n) (minimize sort inputOrder method fuel)
      (minimize sort inputOrder method (fuel + 1)) := by
  induction fuel with
  | zero =>
      intro soff pat result final returned
      cases returned
  | succ fuel ih => exact fun _ _ _ _ returned => minimizeStep_mono ih returned

section Returns

variable (calls : ∀ inner part answer, part ≠ [] → part.length < pat.length →
  ∃ last, self inner part answer = some last)
include calls

/-- The search for a smallest part returns when the calls on its half do. -/
theorem smallest_returns {half lits : List (Lit n)} {state : State n} (nonempty : half ≠ [])
    (short : half.length < pat.length) :
    ∃ search, smallest self half current lits state = some search := by
  apply Fold.foldlM_returns
  intro search context _
  obtain ⟨last, called⟩ := calls (search.state.soff.copyFrom context) half search.state.result
    nonempty short
  exact ⟨_, tryContext_of_call called⟩

/-- The body returns when its calls on shorter patterns do. -/
theorem minimizeStep_returns (nonempty : pat ≠ []) :
    ∃ final, minimizeStep self sort inputOrder method soff pat result = some final := by
  obtain ⟨clauses, current⟩ := soff
  unfold minimizeStep
  split
  · exact ⟨_, rfl⟩
  · split
    · exact ⟨_, rfl⟩
    · split
      · exact ⟨_, rfl⟩
      · next single =>
          obtain ⟨high, low, divided, -, highNonempty, lowNonempty, highShort, lowShort⟩ :=
            exists_halves nonempty single
          rw [divided]
          split
          · rw [divideAndConquer_eq]
            split
            · exact calls _ _ _ lowNonempty lowShort
            · split
              · exact calls _ _ _ highNonempty highShort
              · obtain ⟨solHigh, first⟩ := calls _ _ [] highNonempty highShort
                obtain ⟨solLow, second⟩ := calls _ _ [] lowNonempty lowShort
                rw [first, Option.bind_some, second]
                exact ⟨_, rfl⟩
          · split
            · rw [exhaustive_eq]
              split
              · exact calls _ _ _ lowNonempty lowShort
              · obtain ⟨solHigh, first⟩ := smallest_returns calls highNonempty highShort
                obtain ⟨solLow, second⟩ := smallest_returns calls lowNonempty lowShort
                rw [first, Option.bind_some, second]
                exact ⟨_, rfl⟩
            · exact ⟨_, rfl⟩

end Returns

/-- On a pattern that is not empty the guarded recursion needs no more depth than literals. -/
theorem shrinking_returns (nonempty : pat ≠ []) (enough : pat.length ≤ fuel) :
    ∃ final, shrinking sort inputOrder method fuel soff pat result = some final := by
  induction fuel generalizing soff pat result with
  | zero => exact absurd (List.eq_nil_of_length_eq_zero (by omega)) nonempty
  | succ fuel ih =>
      apply minimizeStep_returns _ nonempty
      intro inner part answer partNonempty shorter
      rw [if_pos shorter]
      exact ih partNonempty (by omega)

/-- Without literals method 3 has nothing to try when the assumptions are satisfiable. -/
theorem minimizeStep_empty (notDivided : method ≠ 2)
    (satisfiable : method = 3 → Satisfiable soff.clauses soff.assumptions) :
    ∃ final, minimizeStep self sort inputOrder method soff [] result = some final := by
  obtain ⟨clauses, current⟩ := soff
  have long : ([] : List (Lit n)).length ≠ 1 := by simp
  have halves : divide ([] : List (Lit n)) = ([], []) := by simp [divide]
  unfold minimizeStep
  rw [if_neg long, if_neg notDivided, halves]
  split
  · exact ⟨_, rfl⟩
  · split
    · exact ⟨_, rfl⟩
    · split
      · next searched =>
          rw [exhaustive_eq, List.append_nil, if_neg (not_not.mpr (satisfiable searched))]
          exact ⟨_, rfl⟩
      · exact ⟨_, rfl⟩

/-- Without literals the dividing methods call themselves on the same pattern. -/
theorem minimize_empty
    (endless : method = 2 ∨ method = 3 ∧ ¬ Satisfiable soff.clauses soff.assumptions) (fuel : ℕ) :
    minimize sort inputOrder method fuel soff [] result = none := by
  induction fuel generalizing soff result with
  | zero => rfl
  | succ fuel ih =>
      obtain ⟨clauses, current⟩ := soff
      have long : ([] : List (Lit n)).length ≠ 1 := by simp
      have halves : divide ([] : List (Lit n)) = ([], []) := by simp [divide]
      rcases endless with rfl | ⟨rfl, unsatisfiable⟩
      · rw [minimize_two long, halves, divideAndConquer_eq]
        simp only [ih (.inl rfl), Option.bind_none, ite_self]
      · rw [minimize_three long, halves, exhaustive_eq, List.append_nil, if_pos unsatisfiable]
        exact ih (.inr ⟨rfl, unsatisfiable⟩)

/-- The recursion terminates unless a dividing method gets no literals and has to search on. -/
theorem terminates_iff (sort : AscendingSort) (inputOrder : InputOrder) (method : ℤ)
    (soff : Solver n) (pat result : List (Lit n)) :
    Terminates sort inputOrder method soff pat result ↔
      pat ≠ [] ∨ (method ≠ 2 ∧ (method = 3 → Satisfiable soff.clauses soff.assumptions)) := by
  constructor
  · intro ⟨fuel, final, _, returned⟩
    by_contra neither
    obtain ⟨empty, rest⟩ := not_or.mp neither
    obtain rfl := not_not.mp empty
    have endless : method = 2 ∨ method = 3 ∧ ¬ Satisfiable soff.clauses soff.assumptions := by
      tauto
    rw [minimize_empty endless] at returned
    cases returned
  · intro condition
    have guarded : ∃ fuel final,
        shrinking sort inputOrder method fuel soff pat result = some final := by
      by_cases nonempty : pat ≠ []
      · exact ⟨pat.length, shrinking_returns nonempty le_rfl⟩
      · obtain rfl := not_not.mp nonempty
        obtain ⟨notDivided, satisfiable⟩ := condition.resolve_left nonempty
        exact ⟨1, minimizeStep_empty notDivided satisfiable⟩
    obtain ⟨fuel, final, returned⟩ := guarded
    exact ⟨fuel, final, returned, shrinking_extends fuel _ _ _ _ returned⟩

/-- Method 2 does not terminate on an empty pattern. -/
theorem minimize_endless :
    ¬ ∀ (sort : AscendingSort) (inputOrder : InputOrder) (method : ℤ) (n : ℕ) (soff : Solver n)
      (pat result : List (Lit n)), 1 ≤ method → method ≤ 4 →
      Terminates sort inputOrder method soff pat result := by
  intro terminates
  obtain ⟨fuel, final, -, returned⟩ :=
    terminates ascendingSort [] 2 2 ⟨sampleFormula, []⟩ [] [] (by decide) (by decide)
  rw [minimize_empty (.inl rfl)] at returned
  cases returned

end LogicRegression.Minimize
