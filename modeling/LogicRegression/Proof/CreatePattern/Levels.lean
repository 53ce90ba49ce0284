import LogicRegression.Proof.CreatePattern.Enumeration

namespace LogicRegression.FixNetwork

open FixedWeight Binary

variable {inputNum : ℕ}

section Counter

/-- Below the half of the inputs a level has less than twice the cap of the level before it. -/
theorem choose_lt_of_earlier {n k : ℕ} {patternUpLimit : ℤ} (half : k < n / 2)
    (cap : patternUpLimit ≤ 800000000 / (n / 2 + 2 : ℕ))
    (earlier : ∀ j < k, (n.choose j : ℤ) ≤ patternUpLimit) : n.choose k < 2 ^ 31 := by
  cases k with
  | zero => norm_num
  | succ k =>
      have below : (n.choose k : ℤ) ≤ patternUpLimit := earlier k (Nat.lt_succ_self k)
      have share : patternUpLimit * (n / 2 + 2 : ℕ) ≤ 800000000 :=
        (Int.le_ediv_iff_mul_le (by positivity)).mp cap
      have capped : n.choose k * (n / 2 + 2) ≤ 800000000 := by
        have scaled := Int.mul_le_mul_of_nonneg_right below (Int.natCast_nonneg (n / 2 + 2))
        exact_mod_cast scaled.trans share
      have ratio : n.choose (k + 1) ≤ n.choose k * n := by
        calc n.choose (k + 1) ≤ n.choose (k + 1) * (k + 1) := Nat.le_mul_of_pos_right _ k.succ_pos
          _ = n.choose k * (n - k) := Nat.choose_succ_right_eq n k
          _ ≤ n.choose k * n := Nat.mul_le_mul_left _ (Nat.sub_le n k)
      have double : n.choose k * n ≤ n.choose k * (2 * (n / 2 + 2)) :=
        Nat.mul_le_mul_left _ (by omega)
      calc n.choose (k + 1) ≤ n.choose k * n := ratio
        _ ≤ n.choose k * (2 * (n / 2 + 2)) := double
        _ = 2 * (n.choose k * (n / 2 + 2)) := by ring
        _ < 2 ^ 31 := by omega

/-- Where it is called the loop of `combinator` visits each vector with this number of ones
exactly once, its counter fits an `int`, and the result is the binomial coefficient. -/
theorem combinator_exact {n k : ℕ} {patternUpLimit : ℤ} (half : k < n / 2)
    (cap : patternUpLimit ≤ 800000000 / (n / 2 + 2 : ℕ))
    (earlier : ∀ j < k, (n.choose j : ℤ) ≤ patternUpLimit) :
    ∃ enough, ∀ fuel ≥ enough, ∃ visits,
      permutations fuel (List.replicate (n - k) false ++ List.replicate k true) = some visits ∧
      visits.Nodup ∧ (∀ v, v ∈ visits ↔ v.length = n ∧ v.count true = k) ∧
      visits.length < 2 ^ 31 ∧ combinator fuel n k = some (n.choose k : ℤ) := by
  have fits : k ≤ n := by omega
  have small := choose_lt_of_earlier half cap earlier
  refine ⟨n.choose k, fun fuel enough => ⟨lex n k, permutations_lex fits enough, lex_nodup n k,
    fun v => mem_lex, ?_, ?_⟩⟩
  · rw [lex_length]
    exact small
  · rw [combinator_eq fits enough, toInt_of_lt small]

/-- Among six inputs there are fifteen pairs. -/
theorem combinator_exact_sample :
    ∃ enough, ∀ fuel ≥ enough, combinator fuel 6 2 = some 15 := by
  have earlier : ∀ j < 2, (Nat.choose 6 j : ℤ) ≤ 10 := by decide
  obtain ⟨enough, runs⟩ := combinator_exact (show 2 < 6 / 2 by decide)
    (show (10 : ℤ) ≤ 800000000 / (6 / 2 + 2 : ℕ) by decide) earlier
  refine ⟨enough, fun fuel bound => ?_⟩
  obtain ⟨visits, -, -, -, -, result⟩ := runs fuel bound
  exact result

end Counter

section Flags

variable (n : ℕ) (patternUpLimit : ℤ) (uninit : ℕ → ℤ)

/-- The counter of an earlier level was over the limit. -/
def OverLimit (k : ℕ) : Prop := ∃ j < k, patternUpLimit < toInt (n.choose j)

instance (k : ℕ) : Decidable (OverLimit n patternUpLimit k) :=
  inferInstanceAs (Decidable (∃ j < k, _))

/-- The flag of a level: after a level over the limit it depends on the uninitialised variable. -/
def twoOrderAt (k : ℕ) : Bool :=
  if OverLimit n patternUpLimit k then uninit k > patternUpLimit
  else toInt (n.choose k) > patternUpLimit

variable {n patternUpLimit} in
theorem overLimit_succ (k : ℕ) : decide (OverLimit n patternUpLimit (k + 1)) =
    (decide (OverLimit n patternUpLimit k) || twoOrderAt n patternUpLimit uninit k) := by
  have split : OverLimit n patternUpLimit (k + 1) ↔
      OverLimit n patternUpLimit k ∨ patternUpLimit < toInt (n.choose k) := by
    unfold OverLimit
    constructor
    · intro ⟨j, below, past⟩
      rcases Nat.lt_succ_iff_lt_or_eq.mp below with earlier | rfl
      · exact .inl ⟨j, earlier, past⟩
      · exact .inr past
    · rintro (⟨j, below, past⟩ | past)
      · exact ⟨j, Nat.lt_succ_of_lt below, past⟩
      · exact ⟨k, Nat.lt_succ_self k, past⟩
  rw [twoOrderAt, Bool.eq_iff_iff, Bool.or_eq_true, decide_eq_true_iff, decide_eq_true_iff, split]
  by_cases past : OverLimit n patternUpLimit k
  · simp [past]
  · simp [past]

/-- The levels of a call from one of them on. -/
def levelList (realPI : List (Fin inputNum)) : ℕ → ℕ → Patterns inputNum → List (Level inputNum)
  | 0, _, _ => []
  | rounds + 1, k, s =>
      let twoOrder := twoOrderAt realPI.length patternUpLimit uninit k
      let visited := printAll realPI twoOrder s
        ((colex realPI.length k).take (room patternUpLimit 2 + 1))
      ⟨twoOrder, visited⟩ :: levelList realPI rounds (k + 1) (visited.getLastD s)

theorem levelList_length (realPI : List (Fin inputNum)) (rounds k : ℕ) (s : Patterns inputNum) :
    (levelList patternUpLimit uninit realPI rounds k s).length = rounds := by
  induction rounds generalizing k s with
  | zero => rfl
  | succ rounds ih => simp [levelList, ih]

theorem levelList_twoOrder {realPI : List (Fin inputNum)} {rounds k i : ℕ} {s : Patterns inputNum}
    {level : Level inputNum}
    (present : (levelList patternUpLimit uninit realPI rounds k s)[i]? = some level) :
    level.twoOrder = twoOrderAt realPI.length patternUpLimit uninit (k + i) := by
  induction rounds generalizing k i s with
  | zero => simp [levelList] at present
  | succ rounds ih =>
      rw [levelList] at present
      cases i with
      | zero =>
          obtain rfl := Option.some.inj present
          rfl
      | succ i =>
          rw [List.getElem?_cons_succ] at present
          rw [ih present, Nat.add_right_comm, Nat.add_assoc]

variable {realPI : List (Fin inputNum)}

/-- The levels are run to their end when the loops over the vectors have room. -/
theorem levels_eq {fuel : ℕ} (enough : 2 ^ realPI.length ≤ fuel) (rounds k : ℕ)
    (fits : k + rounds ≤ realPI.length) (s : Patterns inputNum) :
    levels fuel realPI.length patternUpLimit realPI uninit rounds k k
        (decide (OverLimit realPI.length patternUpLimit k)) s =
      some (levelList patternUpLimit uninit realPI rounds k s) := by
  induction rounds generalizing k s with
  | zero => rfl
  | succ rounds ih =>
      have inside : k ≤ realPI.length := by omega
      have subsets : realPI.length.choose k ≤ fuel := (Nat.choose_le_two_pow _ _).trans enough
      have computed : (levelResult fuel realPI.length k
          (decide (OverLimit realPI.length patternUpLimit k)) (uninit k)).map
            (fun result => decide (result > patternUpLimit)) =
              some (twoOrderAt realPI.length patternUpLimit uninit k) := by
        rw [levelResult, twoOrderAt]
        by_cases past : OverLimit realPI.length patternUpLimit k
        · simp [past]
        · simp [past, combinator_eq inside subsets]
      obtain ⟨result, returned, flag⟩ := Option.map_eq_some_iff.mp computed
      have later := ih (k + 1) (by omega)
        ((printAll realPI (twoOrderAt realPI.length patternUpLimit uninit k) s
          ((colex realPI.length k).take (room patternUpLimit 2 + 1))).getLastD s)
      rw [overLimit_succ uninit] at later
      simp only [levels, returned, combIndices_eq patternUpLimit inside subsets,
        Option.bind_eq_bind, Option.bind_some, flag, later, levelList]
      rfl

/-- The levels of a call are run to their end. -/
theorem levels_run {fuel : ℕ} (enough : 2 ^ realPI.length ≤ fuel) :
    levels fuel realPI.length patternUpLimit realPI uninit (realPI.length / 2) 0 0 false
        Patterns.empty =
      some (levelList patternUpLimit uninit realPI (realPI.length / 2) 0 Patterns.empty) := by
  have start : decide (OverLimit realPI.length patternUpLimit 0) = false := by simp [OverLimit]
  have run := levels_eq patternUpLimit uninit enough (realPI.length / 2) 0 (by omega) Patterns.empty
  rwa [start] at run

/-- With more room the loop of `combinator` visits the same vectors. -/
theorem permutations_mono {fuel more : ℕ} (grown : fuel ≤ more) {v : List Bool}
    {visits : List (List Bool)} (returned : permutations fuel v = some visits) :
    permutations more v = some visits := by
  induction fuel generalizing more v visits with
  | zero => cases returned
  | succ fuel ih =>
      obtain ⟨more, rfl⟩ := Nat.exists_eq_succ_of_ne_zero (Nat.ne_of_gt (Nat.zero_lt_of_lt grown))
      rw [permutations] at returned ⊢
      split at returned
      · obtain ⟨later, rest, rfl⟩ := Option.map_eq_some_iff.mp returned
        rw [ih (Nat.le_of_succ_le_succ grown) rest, Option.map_some]
      · exact returned

/-- With more room the loop of `Comb` prints the same vectors. -/
theorem combLoop_mono {fuel more k : ℕ} (grown : fuel ≤ more) {index : List Bool} {patternSize : ℤ}
    {printed : List (List Bool)}
    (returned : combLoop n k patternUpLimit fuel index patternSize = some printed) :
    combLoop n k patternUpLimit more index patternSize = some printed := by
  induction fuel generalizing more index patternSize printed with
  | zero => cases returned
  | succ fuel ih =>
      obtain ⟨more, rfl⟩ := Nat.exists_eq_succ_of_ne_zero (Nat.ne_of_gt (Nat.zero_lt_of_lt grown))
      have inside : fuel ≤ more := Nat.le_of_succ_le_succ grown
      rw [combLoop] at returned ⊢
      by_cases done : hasDone index n k = true
      · rwa [if_pos done] at returned ⊢
      · rw [if_neg done] at returned ⊢
        cases stepped : nextIndex index with
        | none =>
            rw [stepped] at returned
            exact ih inside returned
        | some next =>
            simp only [stepped] at returned ⊢
            by_cases below : patternSize < patternUpLimit
            · rw [if_pos below] at returned ⊢
              obtain ⟨later, rest, rfl⟩ := Option.map_eq_some_iff.mp returned
              rw [ih inside rest, Option.map_some]
            · rwa [if_neg below] at returned ⊢

/-- With more room the levels are the same. -/
theorem levels_mono {fuel more : ℕ} (grown : fuel ≤ more) {rounds j k : ℕ} {overLimit : Bool}
    {s : Patterns inputNum} {found : List (Level inputNum)}
    (returned : levels fuel n patternUpLimit realPI uninit rounds j k overLimit s = some found) :
    levels more n patternUpLimit realPI uninit rounds j k overLimit s = some found := by
  induction rounds generalizing j k overLimit s found with
  | zero => exact returned
  | succ rounds ih =>
      simp only [levels, Option.bind_eq_bind, Option.bind_eq_some_iff, Option.pure_def,
        Option.some.injEq] at returned ⊢
      obtain ⟨result, computed, indices, printed, later, rest, rfl⟩ := returned
      refine ⟨result, ?_, indices, ?_, later, ih rest, rfl⟩
      · cases overLimit with
        | true => exact computed
        | false =>
            obtain ⟨visits, visited, rfl⟩ := Option.map_eq_some_iff.mp computed
            change combinator more n k = _
            rw [combinator, permutations_mono grown visited, Option.map_some]
      · obtain ⟨rest, looped, rfl⟩ := Option.map_eq_some_iff.mp printed
        simp only [combIndices, combLoop_mono n patternUpLimit grown looped, Option.map_some]

/-- There is one result for the levels of a call. -/
theorem levels_returned {fuel : ℕ} {found : List (Level inputNum)}
    (returned : levels fuel realPI.length patternUpLimit realPI uninit (realPI.length / 2) 0 0 false
      Patterns.empty = some found) :
    found = levelList patternUpLimit uninit realPI (realPI.length / 2) 0 Patterns.empty := by
  have run := levels_run patternUpLimit uninit (le_max_right fuel (2 ^ realPI.length))
  rw [levels_mono _ _ _ (le_max_left fuel _) returned] at run
  exact Option.some.inj run

/-- All flags of a call are right for every value of the uninitialised variable exactly when no
level comes after the first one over the limit and no counter wraps around the limit. -/
theorem twoOrder_exact_iff (realPI : List (Fin inputNum)) :
    (∀ uninit, ∃ enough, ∀ fuel ≥ enough, ∃ found,
      levels fuel realPI.length patternUpLimit realPI uninit (realPI.length / 2) 0 0 false
        Patterns.empty = some found ∧
      found.length = realPI.length / 2 ∧
      ∀ (k : ℕ) (level : Level inputNum), found[k]? = some level →
        (level.twoOrder = true ↔ (realPI.length.choose k : ℤ) > patternUpLimit)) ↔
    (∀ k, k + 1 < realPI.length / 2 → (realPI.length.choose k : ℤ) ≤ patternUpLimit) ∧
      ∀ k < realPI.length / 2, (patternUpLimit < toInt (realPI.length.choose k) ↔
        patternUpLimit < realPI.length.choose k) := by
  constructor
  · intro all
    have flag (uninit : ℕ → ℤ) {k : ℕ} (inside : k < realPI.length / 2) :
        twoOrderAt realPI.length patternUpLimit uninit k = true ↔
          (realPI.length.choose k : ℤ) > patternUpLimit := by
      obtain ⟨enough, runs⟩ := all uninit
      obtain ⟨found, returned, size, right⟩ := runs (max enough (2 ^ realPI.length)) (le_max_left _ _)
      rw [levels_run patternUpLimit uninit (le_max_right _ _)] at returned
      obtain rfl := Option.some.inj returned
      have present := List.getElem?_eq_getElem (size.symm ▸ inside)
      have exact := right k _ present
      rwa [levelList_twoOrder patternUpLimit uninit present, Nat.zero_add] at exact
    have called {k : ℕ} (inside : k < realPI.length / 2) :
        ¬ OverLimit realPI.length patternUpLimit k := by
      intro past
      have low := flag (fun _ => patternUpLimit) inside
      have high := flag (fun _ => patternUpLimit + 1) inside
      simp only [twoOrderAt, if_pos past, gt_iff_lt, decide_eq_true_eq] at low high
      exact (lt_irrefl patternUpLimit) (low.mpr (high.mp (by omega)))
    have counted {k : ℕ} (inside : k < realPI.length / 2) :
        patternUpLimit < toInt (realPI.length.choose k) ↔
          patternUpLimit < realPI.length.choose k := by
      have exact := flag (fun _ => 0) inside
      simpa only [twoOrderAt, if_neg (called inside), gt_iff_lt, decide_eq_true_eq] using exact
    refine ⟨fun k last => ?_, fun k inside => counted inside⟩
    by_contra above
    exact called last ⟨k, Nat.lt_succ_self k, (counted (by omega)).mpr (not_le.mp above)⟩
  · intro ⟨fits, counted⟩ uninit
    refine ⟨2 ^ realPI.length, fun fuel enough => ⟨_, levels_run patternUpLimit uninit enough,
      levelList_length _ _ _ _ _ _, fun k level present => ?_⟩⟩
    have inside : k < realPI.length / 2 := by
      have bound := (List.getElem?_eq_some_iff.mp present).1
      rwa [levelList_length] at bound
    have called : ¬ OverLimit realPI.length patternUpLimit k := by
      intro ⟨j, below, past⟩
      exact absurd ((counted j (by omega)).mp past) (not_lt.mpr (fits j (by omega)))
    rw [levelList_twoOrder patternUpLimit uninit present, Nat.zero_add, twoOrderAt, if_neg called,
      decide_eq_true_iff]
    exact counted k inside

/-- Six real inputs. -/
def sixRealPI : List (Fin 6) := [0, 1, 2, 3, 4, 5]

/-- The level of the six single inputs is over a limit of three, and the next flag is wrong. -/
theorem twoOrder_wrong :
    ∃ (uninit : ℕ → ℤ) (enough : ℕ), ∀ fuel ≥ enough, ∃ found level,
      levels fuel 6 3 sixRealPI uninit 3 0 0 false Patterns.empty = some found ∧
      found[2]? = some level ∧ level.twoOrder = false ∧ (Nat.choose 6 2 : ℤ) > 3 := by
  refine ⟨fun _ => 0, 2 ^ 6, fun fuel enough => ?_⟩
  have room : 2 ^ sixRealPI.length ≤ fuel := enough
  have run := levels_run 3 (fun _ => 0) room
  have present := List.getElem?_eq_getElem (show 2 < (levelList 3 (fun _ => 0) sixRealPI 3 0
    Patterns.empty).length by rw [levelList_length]; decide)
  refine ⟨_, _, run, present, ?_, by decide⟩
  rw [levelList_twoOrder 3 (fun _ => 0) present]
  decide

end Flags

end LogicRegression.FixNetwork
