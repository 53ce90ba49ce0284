import LogicRegression.Proof.CreatePattern.Budget
import LogicRegression.Proof.CreatePattern.Candidates
import LogicRegression.Proof.CreatePattern.Rounds

namespace LogicRegression.FixNetwork

open Binary TimingFunc

variable {inputNum : ℕ} {realPI : List (Fin inputNum)} {patternUpLimit : ℤ} {rand : ℕ → ℕ}
  {count : ℕ}

section Rounds

theorem Round.drawn_mem (round : Round inputNum) : round.drawn realPI rand ∈ candidates realPI :=
  assignBits_mem _

theorem Round.next_known {round : Round inputNum}
    (known : round.drawn realPI rand ∈ keys round.patterns) :
    round.next realPI rand =
      ⟨round.extreme, round.i, round.count + realPI.length, round.patterns⟩ := by
  have found : toStr (round.drawn realPI rand) ∈ round.patterns.ppp := mem_keys.mp known
  simp only [Round.next, Patterns.recordPair, if_pos found]

theorem Round.next_fresh {round : Round inputNum}
    (fresh : round.drawn realPI rand ∉ keys round.patterns) :
    round.next realPI rand = ⟨round.extreme, round.i + 1, round.count + realPI.length,
      round.patterns.recordPair (round.drawn realPI rand)⟩ := by
  have unknown : toStr (round.drawn realPI rand) ∉ round.patterns.ppp := fun found =>
    fresh (mem_keys.mpr found)
  simp only [Round.next, if_neg unknown]

variable {uninit : ℕ → ℤ}

/-- The loops start where the levels end. -/
theorem roundOfCall_iff {round : Round inputNum} :
    RoundOfCall realPI patternUpLimit uninit rand count round ↔
      Reached realPI patternUpLimit rand count (enumerated realPI patternUpLimit uninit) round := by
  constructor
  · intro ⟨fuel, found, returned, reached⟩
    rw [levels_returned patternUpLimit uninit returned] at reached
    exact reached
  · intro reached
    have run := levels_run patternUpLimit uninit (le_refl (2 ^ realPI.length))
    exact ⟨_, _, run, reached⟩

end Rounds

section Invariant

variable (distinct : realPI.Nodup)
include distinct

/-- A new vector adds itself and, when all inputs are real, its complement to the candidates. -/
theorem card_recordPair {s : Patterns inputNum} (closed : ∀ x ∈ keys s, flip x ∈ keys s)
    {z : Fin inputNum → Bool} (inside : z ∈ candidates realPI) (fresh : z ∉ keys s) :
    (keys (s.recordPair z) ∩ candidates realPI).card =
      (keys s ∩ candidates realPI).card + share realPI := by
  have unknown : z ∉ keys s ∩ candidates realPI := fun both => fresh (Finset.mem_inter.mp both).1
  rw [keys_recordPair fresh, share]
  split
  · next all =>
      have other := (flip_mem_candidates distinct inside).mpr all.2
      have positive : 1 ≤ inputNum := all.2 ▸ all.1
      have opposite : flip z ∉ insert z (keys s ∩ candidates realPI) := by
        rw [Finset.mem_insert, Finset.mem_inter, not_or]
        refine ⟨flip_ne positive z, fun both => fresh ?_⟩
        have back := closed _ both.1
        rwa [flip_flip] at back
      rw [Finset.insert_inter_of_mem other, Finset.insert_inter_of_mem inside,
        Finset.card_insert_of_notMem opposite, Finset.card_insert_of_notMem unknown]
  · next some =>
      have single : insert (flip z) (insert z (keys s)) ∩ candidates realPI =
          insert z (keys s ∩ candidates realPI) := by
        by_cases other : flip z ∈ candidates realPI
        · have all := (flip_mem_candidates distinct inside).mp other
          have same : flip z = z := by
            funext j
            have none : inputNum = 0 := by
              by_contra positive
              exact some ⟨by omega, all⟩
            exact absurd j.isLt (by omega)
          rw [same, Finset.insert_idem, Finset.insert_inter_of_mem inside]
        · rw [Finset.insert_inter_of_notMem other, Finset.insert_inter_of_mem inside]
      rw [single, Finset.card_insert_of_notMem unknown]

variable (patternUpLimit) in
omit distinct in
/-- The number of vectors that the two loops have added so far. -/
def Round.done (round : Round inputNum) : ℤ :=
  if round.extreme then round.i else patternUpLimit + round.i

/-- The keys are closed under complements, and they are counted. -/
structure Counted (realPI : List (Fin inputNum)) (patternUpLimit : ℤ) (base : ℕ)
    (round : Round inputNum) : Prop where
  closed : ∀ x ∈ keys round.patterns, flip x ∈ keys round.patterns
  least : 0 ≤ round.i
  most : round.i ≤ patternUpLimit
  card : ((keys round.patterns ∩ candidates realPI).card : ℤ) =
    base + share realPI * round.done patternUpLimit

/-- One round keeps the count. -/
theorem Counted.next {base : ℕ} {round : Round inputNum}
    (counted : Counted realPI patternUpLimit base round) (below : round.i < patternUpLimit) :
    Counted realPI patternUpLimit base (round.next realPI rand) := by
  by_cases known : round.drawn realPI rand ∈ keys round.patterns
  · rw [Round.next_known known]
    exact ⟨counted.closed, counted.least, counted.most, counted.card⟩
  · have card := card_recordPair distinct counted.closed round.drawn_mem known
    rw [Round.next_fresh known]
    have least : 0 ≤ round.i + 1 := by
      have before := counted.least
      omega
    refine ⟨fun x listed => ?_, least, below, ?_⟩
    · rw [keys_recordPair known, Finset.mem_insert, Finset.mem_insert] at listed ⊢
      rcases listed with rfl | rfl | earlier
      · rw [flip_flip]
        exact .inr (.inl rfl)
      · exact .inl rfl
      · exact .inr (.inr (counted.closed x earlier))
    · have before := counted.card
      rw [Round.done] at before ⊢
      dsimp only at before ⊢
      rw [card]
      push_cast
      rw [before]
      split <;> ring

/-- Every reached round is counted. -/
theorem Reached.counted {uninit : ℕ → ℤ} (nonneg : 0 ≤ patternUpLimit) {round : Round inputNum}
    (reached : Reached realPI patternUpLimit rand count (enumerated realPI patternUpLimit uninit)
      round) :
    Counted realPI patternUpLimit (share realPI * ∑ k ∈ Finset.range (realPI.length / 2),
      (levelVectors realPI.length patternUpLimit uninit k).card) round := by
  induction reached with
  | extreme =>
      refine ⟨fun x listed => ?_, le_rfl, nonneg, ?_⟩
      · rw [keys_enumerated distinct, Finset.mem_union, Finset.mem_image, Finset.mem_image] at listed ⊢
        rcases listed with ⟨v, own, rfl⟩ | ⟨v, own, rfl⟩
        · exact .inr ⟨v, own, rfl⟩
        · exact .inl ⟨v, own, (flip_flip _).symm⟩
      · rw [card_enumerated distinct]
        simp [Round.done]
  | next reached below ih => exact ih.next distinct below
  | plain reached full ih =>
      refine ⟨ih.closed, le_rfl, nonneg, ?_⟩
      have total := ih.card
      rw [Round.done, if_pos rfl, le_antisymm ih.most full] at total
      rw [Round.done, if_neg Bool.false_ne_true, add_zero]
      exact total

/-- The candidates are used up exactly when all of them are counted. -/
theorem exists_fresh_iff (s : Patterns inputNum) :
    (∃ x ∈ candidates realPI, x ∉ keys s) ↔
      (keys s ∩ candidates realPI).card < 2 ^ realPI.length := by
  rw [← card_candidates distinct]
  constructor
  · intro ⟨x, inside, fresh⟩
    apply Finset.card_lt_card
    refine ⟨Finset.inter_subset_right, fun all => fresh ?_⟩
    exact (Finset.mem_inter.mp (all inside)).1
  · intro fewer
    by_contra none
    push Not at none
    have all : keys s ∩ candidates realPI = candidates realPI :=
      Finset.inter_eq_right.mpr fun x inside => none x inside
    rw [all] at fewer
    exact lt_irrefl _ fewer

end Invariant

section Steering

variable {start : Patterns inputNum} {other : ℕ → ℕ}

theorem draw_congr (bit : ℕ → Bool) (place : ℕ)
    (same : ∀ j < realPI.length, rand (place + j) = other (place + j)) :
    draw bit realPI rand place = draw bit realPI other place := by
  rw [draw, draw]
  congr 1
  apply List.map_congr_left
  intro j inside
  rw [same j (List.mem_range.mp inside)]

/-- A reached round depends on the random numbers that were used before it. -/
theorem Reached.congr {round : Round inputNum}
    (reached : Reached realPI patternUpLimit rand count start round)
    (same : ∀ k < round.count, rand k = other k) :
    Reached realPI patternUpLimit other count start round := by
  induction reached with
  | extreme => exact .extreme
  | next reached below ih =>
      next round =>
        have used : (round.next realPI rand).count = round.count + realPI.length := rfl
        have drawn : round.drawn realPI rand = round.drawn realPI other :=
          draw_congr round.bit round.count fun j inside => same _ (by omega)
        have step : round.next realPI rand = round.next realPI other := by
          rw [Round.next, Round.next, drawn]
        rw [step]
        exact .next (ih fun k inside => same k (by omega)) below
  | plain reached full ih => exact .plain (ih same) full

/-- Some numbers make a round of either loop draw a given candidate. -/
theorem drawn_eq (distinct : realPI.Nodup) {x : Fin inputNum → Bool}
    (inside : x ∈ candidates realPI) (round : Round inputNum)
    (encoded : ∀ j < realPI.length,
      rand (round.count + j) = if (realPI.map x).getD j false then 95 else 0) :
    round.drawn realPI rand = x := by
  have bits (b : Bool) : round.bit (if b then 95 else 0) = b := by
    rw [Round.bit]
    cases b <;> split <;> rfl
  have values : (List.range realPI.length).map (fun j => round.bit (rand (round.count + j))) =
      realPI.map x := by
    apply List.ext_getElem
    · simp
    · intro j short _
      have bound : j < realPI.length := by simpa using short
      rw [List.getElem_map, List.getElem_range, encoded j bound, bits]
      simp [bound]
  rw [Round.drawn, draw, values, assignBits_map distinct inside]

/-- As long as each reached round has a new candidate, some numbers make every round count. -/
theorem exists_reached (distinct : realPI.Nodup) (positive : 0 < patternUpLimit)
    (progress : ∀ rand round, Reached realPI patternUpLimit rand count start round →
      round.i < patternUpLimit → ∃ x ∈ candidates realPI, x ∉ keys round.patterns)
    (t : ℕ) (within : (t : ℤ) < 2 * patternUpLimit) :
    ∃ rand round, Reached realPI patternUpLimit rand count start round ∧
      round.i < patternUpLimit ∧ round.done patternUpLimit = t := by
  induction t with
  | zero => exact ⟨fun _ => 0, _, .extreme, positive, rfl⟩
  | succ t ih =>
      push_cast at within ⊢
      obtain ⟨rand, round, reached, below, done⟩ := ih (by omega)
      obtain ⟨x, inside, fresh⟩ := progress rand round reached below
      let other (k : ℕ) : ℕ := if k < round.count then rand k
        else if (realPI.map x).getD (k - round.count) false then 95 else 0
      have again : Reached realPI patternUpLimit other count start round :=
        reached.congr fun k used => (if_pos used).symm
      have drawn : round.drawn realPI other = x := by
        apply drawn_eq distinct inside
        intro j _
        have later : ¬ round.count + j < round.count := by omega
        simp only [other, if_neg later, Nat.add_sub_cancel_left]
      have step := Round.next_fresh (drawn.symm ▸ fresh)
      have next := again.next below
      rw [step] at next
      obtain ⟨extreme, i, used, s⟩ := round
      dsimp only at below next
      cases extreme with
      | false =>
          have total : patternUpLimit + i = t := done
          have later : patternUpLimit + (i + 1) = t + 1 := by omega
          exact ⟨other, _, next, show i + 1 < patternUpLimit by omega, later⟩
      | true =>
          have total : i = t := done
          by_cases more : i + 1 < patternUpLimit
          · exact ⟨other, _, next, more, congrArg (· + 1) total⟩
          · have last : patternUpLimit + 0 = (t : ℤ) + 1 := by omega
            exact ⟨other, _, .plain next (not_lt.mp more), positive, last⟩

end Steering

section Progress

variable (distinct : realPI.Nodup) {uninit : ℕ → ℤ}
include distinct

/-- With too many rounds some numbers lead to a round without a new candidate. -/
theorem exists_stuck (positive : 0 < patternUpLimit)
    (full : (2 : ℤ) ^ realPI.length ≤ share realPI * (∑ k ∈ Finset.range (realPI.length / 2),
      ((levelVectors realPI.length patternUpLimit uninit k).card : ℤ) + 2 * patternUpLimit - 1)) :
    ∃ rand round, RoundOfCall realPI patternUpLimit uninit rand count round ∧
      round.i < patternUpLimit ∧ ¬ ∃ x ∈ candidates realPI, x ∉ keys round.patterns := by
  by_contra none
  have progress (rand : ℕ → ℕ) (round : Round inputNum)
      (reached : Reached realPI patternUpLimit rand count (enumerated realPI patternUpLimit uninit)
        round) (below : round.i < patternUpLimit) :
      ∃ x ∈ candidates realPI, x ∉ keys round.patterns := by
    by_contra stuck
    exact none ⟨rand, round, roundOfCall_iff.mpr reached, below, stuck⟩
  obtain ⟨rand, round, reached, below, done⟩ := exists_reached distinct positive progress
    (2 * patternUpLimit - 1).toNat (by omega)
  have fewer := (exists_fresh_iff distinct round.patterns).mp (progress rand round reached below)
  have card := (reached.counted distinct positive.le).card
  rw [done] at card
  have last : ((2 * patternUpLimit - 1).toNat : ℤ) = 2 * patternUpLimit - 1 := by omega
  rw [last] at card
  have bound : ((keys round.patterns ∩ candidates realPI).card : ℤ) < 2 ^ realPI.length := by
    exact_mod_cast fewer
  rw [card] at bound
  push_cast at bound
  linarith

/-- A call with more rounds than candidates never returns. -/
theorem createPattern_endless (nonneg : 0 ≤ patternUpLimit)
    (full : (2 : ℤ) ^ realPI.length < share realPI * (∑ k ∈ Finset.range (realPI.length / 2),
      ((levelVectors realPI.length patternUpLimit uninit k).card : ℤ) + 2 * patternUpLimit))
    (fuel : ℕ) : createPattern fuel realPI.length 0 (realPI.length / 2) patternUpLimit realPI uninit
      rand count = none := by
  cases returned : createPattern fuel realPI.length 0 (realPI.length / 2) patternUpLimit realPI
      uninit rand count with
  | none => rfl
  | some result =>
      obtain ⟨i, done, reached⟩ := createPattern_reached returned
      have counted := (roundOfCall_iff.mp reached).counted distinct nonneg
      have most : (keys result.1.final ∩ candidates realPI).card ≤ 2 ^ realPI.length := by
        rw [← card_candidates distinct]
        exact Finset.card_le_card Finset.inter_subset_right
      have bound : ((keys result.1.final ∩ candidates realPI).card : ℤ) ≤ 2 ^ realPI.length := by
        exact_mod_cast most
      have card := counted.card
      have last : i = patternUpLimit := le_antisymm counted.most done
      rw [Round.done, if_neg Bool.false_ne_true, last] at card
      rw [card] at bound
      push_cast at bound
      linarith

/-- Each round has a new vector to draw when the vectors of the levels and of all rounds but the last
one leave one. -/
theorem exists_fresh_of_room (nonneg : 0 ≤ patternUpLimit)
    (room : share realPI * (∑ k ∈ Finset.range (realPI.length / 2),
      ((levelVectors realPI.length patternUpLimit uninit k).card : ℤ) + 2 * patternUpLimit - 1) <
        2 ^ realPI.length)
    {round : Round inputNum} (reached : RoundOfCall realPI patternUpLimit uninit rand count round)
    (below : round.i < patternUpLimit) : ∃ x ∈ candidates realPI, x ∉ keys round.patterns := by
  have counted := (roundOfCall_iff.mp reached).counted distinct nonneg
  rw [exists_fresh_iff distinct]
  have done : round.done patternUpLimit ≤ 2 * patternUpLimit - 1 := by
    rw [Round.done]
    split <;> omega
  have scaled : (share realPI : ℤ) * round.done patternUpLimit ≤
      share realPI * (2 * patternUpLimit - 1) :=
    mul_le_mul_of_nonneg_left done (Int.natCast_nonneg _)
  have card := counted.card
  push_cast at card
  have bound : ((keys round.patterns ∩ candidates realPI).card : ℤ) < 2 ^ realPI.length := by
    linarith
  exact_mod_cast bound

/-- Whatever numbers are drawn, each round of the random loops has a new vector to draw exactly
when the vectors of the levels and of all rounds but the last one leave one. -/
theorem progress_iff (nonneg : 0 ≤ patternUpLimit) (uninit : ℕ → ℤ) (count : ℕ) :
    (∀ rand round, RoundOfCall realPI patternUpLimit uninit rand count round →
      round.i < patternUpLimit →
        ∃ x : Fin inputNum → Bool, (∀ j ∉ realPI, x j = false) ∧ toStr x ∉ round.patterns.ppp) ↔
    patternUpLimit = 0 ∨
      share realPI * (∑ k ∈ Finset.range (realPI.length / 2),
        ((levelVectors realPI.length patternUpLimit uninit k).card : ℤ) + 2 * patternUpLimit - 1) <
          2 ^ realPI.length := by
  have fresh (round : Round inputNum) :
      (∃ x : Fin inputNum → Bool, (∀ j ∉ realPI, x j = false) ∧ toStr x ∉ round.patterns.ppp) ↔
        ∃ x ∈ candidates realPI, x ∉ keys round.patterns := by
    simp only [mem_candidates, mem_keys]
  simp only [fresh]
  constructor
  · intro progress
    by_contra neither
    push Not at neither
    have positive : 0 < patternUpLimit := lt_of_le_of_ne nonneg neither.1.symm
    obtain ⟨rand, round, reached, below, stuck⟩ := exists_stuck distinct positive neither.2
    exact stuck (progress rand round reached below)
  · intro room rand round reached below
    rcases room with zero | room
    · have least := ((roundOfCall_iff.mp reached).counted distinct nonneg).least
      exact absurd least (by omega)
    · exact exists_fresh_of_room distinct nonneg room reached below

/-- A limit that is small beside the number of vectors leaves a new vector in every round, whatever
the levels find in the uninitialised variable. -/
theorem progress_of_small_limit (nonneg : 0 ≤ patternUpLimit)
    (small : share realPI * ((realPI.length / 2 : ℕ) * (patternUpLimit + 2) + 2 * patternUpLimit - 1) <
      2 ^ realPI.length)
    {round : Round inputNum} (reached : RoundOfCall realPI patternUpLimit uninit rand count round)
    (below : round.i < patternUpLimit) :
    ∃ x : Fin inputNum → Bool, (∀ j ∉ realPI, x j = false) ∧ toStr x ∉ round.patterns.ppp := by
  have levels : ∑ k ∈ Finset.range (realPI.length / 2),
      ((levelVectors realPI.length patternUpLimit uninit k).card : ℤ) ≤
        (realPI.length / 2 : ℕ) * (patternUpLimit + 2) := by
    have sum := Finset.sum_le_card_nsmul (Finset.range (realPI.length / 2))
      (fun k => ((levelVectors realPI.length patternUpLimit uninit k).card : ℤ)) (patternUpLimit + 2)
      fun k _ => card_levelVectors_le nonneg k
    rwa [Finset.card_range, nsmul_eq_mul] at sum
  have room : share realPI * (∑ k ∈ Finset.range (realPI.length / 2),
      ((levelVectors realPI.length patternUpLimit uninit k).card : ℤ) + 2 * patternUpLimit - 1) <
        2 ^ realPI.length := by
    refine lt_of_le_of_lt (mul_le_mul_of_nonneg_left ?_ (Int.natCast_nonneg _)) small
    linarith
  obtain ⟨x, inside, fresh⟩ := exists_fresh_of_room distinct nonneg room reached below
  exact ⟨x, mem_candidates.mp inside, fun known => fresh (mem_keys.mpr known)⟩

end Progress

/-- Two of three inputs leave room for one round in each loop. -/
theorem progress_iff_sample :
    ∃ round, RoundOfCall sampleRealPI 1 (fun _ => 0) sampleRand 0 round ∧ round.i < 1 ∧
      ∃ x : Fin 3 → Bool, (∀ j ∉ sampleRealPI, x j = false) ∧ toStr x ∉ round.patterns.ppp := by
  have first : RoundOfCall sampleRealPI 1 (fun _ => 0) sampleRand 0 ⟨true, 0, 0, _⟩ :=
    roundOfCall_iff.mpr .extreme
  have below : (0 : ℤ) < 1 := by decide
  have progress := (progress_iff (show sampleRealPI.Nodup by decide) (show (0 : ℤ) ≤ 1 by decide)
    (fun _ => 0) 0).mpr (.inr (by decide))
  exact ⟨_, first, below, progress sampleRand _ first below⟩

/-- Twenty of twenty-four inputs are real. -/
def twentyRealPI : List (Fin 24) := (List.finRange 24).take 20

/-- With a simulator that is fast enough the limit is above the half of all candidates. -/
theorem twentyTiming_limit : (timingFunction Rounding.exact 0 100 ⟨20, 20, 1200000⟩ 0).1 = 553333 := by
  have factor : perSecond 1200000 = 6640 := by decide
  have half : Int.tdiv 20 2 = 10 := by decide
  norm_num [timingFunction, upLimit, fullCapacity, capacity, piNumRatio, mag, remainingTime,
    truncate, factor, half, Rounding.exact]

/-- Twenty real inputs have fewer vectors than the two loops ask for: some numbers lead to a round
without a new candidate, and no call ever returns. -/
theorem progress_fails :
    (∃ rand round, RoundOfCall twentyRealPI (timingFunction Rounding.exact 0 100 ⟨20, 20, 1200000⟩ 0).1
        (fun _ => 0) rand 0 round ∧
      round.i < (timingFunction Rounding.exact 0 100 ⟨20, 20, 1200000⟩ 0).1 ∧
      ¬ ∃ x : Fin 24 → Bool, (∀ j ∉ twentyRealPI, x j = false) ∧ toStr x ∉ round.patterns.ppp) ∧
    ∀ fuel rand, createPattern fuel twentyRealPI.length 0 (twentyRealPI.length / 2)
      (timingFunction Rounding.exact 0 100 ⟨20, 20, 1200000⟩ 0).1 twentyRealPI (fun _ => 0) rand 0 =
        none := by
  have distinct : twentyRealPI.Nodup := (List.nodup_finRange 24).sublist (List.take_sublist _ _)
  have size : twentyRealPI.length = 20 := by decide
  have single : share twentyRealPI = 1 := by
    rw [share, size]
    decide
  rw [twentyTiming_limit]
  have levels : (0 : ℤ) ≤ ∑ k ∈ Finset.range (twentyRealPI.length / 2),
      ((levelVectors twentyRealPI.length 553333 (fun _ => 0) k).card : ℤ) :=
    Finset.sum_nonneg fun _ _ => Int.natCast_nonneg _
  have candidateCount : (2 : ℤ) ^ twentyRealPI.length = 1048576 := by
    rw [size]
    norm_num
  constructor
  · have full : (2 : ℤ) ^ twentyRealPI.length ≤ share twentyRealPI *
        (∑ k ∈ Finset.range (twentyRealPI.length / 2),
          ((levelVectors twentyRealPI.length 553333 (fun _ => 0) k).card : ℤ) + 2 * 553333 - 1) := by
      rw [candidateCount, single]
      push_cast
      linarith
    have positive : (0 : ℤ) < 553333 := by decide
    obtain ⟨rand, round, reached, below, stuck⟩ := exists_stuck distinct positive full
    use rand, round, reached, below
    simpa only [mem_candidates, mem_keys] using stuck
  · intro fuel rand
    apply createPattern_endless distinct (by decide)
    rw [candidateCount, single]
    push_cast
    linarith

end LogicRegression.FixNetwork
