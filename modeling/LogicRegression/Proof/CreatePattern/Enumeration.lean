import LogicRegression.Construction.CreatePattern
import LogicRegression.Library.FixedWeight

namespace LogicRegression.FixNetwork

open FixedWeight Binary

section Successor

/-- A turn lies inside the vector, with its successor. -/
theorem firstTurn_lt {i p : ℕ} {index : List Bool} (found : firstTurn i index = some p) :
    i ≤ p ∧ p + 1 < i + index.length := by
  induction i, index using firstTurn.induct with
  | case1 i rest =>
      obtain rfl : i = p := by simpa [firstTurn] using found
      simp
  | case2 i b rest noTurn ih =>
      rw [firstTurn.eq_2 i b rest noTurn] at found
      have bounds := ih found
      rw [List.length_cons]
      omega
  | case3 i => simp [firstTurn] at found

/-- What follows does not change the first turn. -/
theorem firstTurn_append {i p : ℕ} {index : List Bool} (found : firstTurn i index = some p)
    (rest : List Bool) : firstTurn i (index ++ rest) = some p := by
  induction i, index using firstTurn.induct with
  | case1 i tail => simpa [firstTurn] using found
  | case2 i b tail noTurn ih =>
      rw [firstTurn.eq_2 i b tail noTurn] at found
      rw [List.cons_append, firstTurn.eq_2 i b (tail ++ rest), ih found]
      rintro more rfl same
      cases tail with
      | nil => simp [firstTurn] at found
      | cons c tail =>
          obtain rfl : c = false := (List.cons.inj same).1
          exact noTurn tail rfl rfl
  | case3 i => simp [firstTurn] at found

/-- The first run of ones ends at the first turn. -/
theorem firstTurn_run (i m k : ℕ) (rest : List Bool) :
    firstTurn i (List.replicate m false ++ List.replicate (k + 1) true ++ false :: rest) =
      some (i + m + k) := by
  induction m generalizing i with
  | zero =>
      induction k generalizing i with
      | zero => rfl
      | succ k ih =>
          have step := ih (i + 1)
          simp only [List.replicate_zero, List.nil_append, List.replicate_succ, List.cons_append,
            firstTurn, Nat.add_zero] at step ⊢
          rw [step]
          congr 1
          omega
  | succ m ih =>
      have step := ih (i + 1)
      simp only [List.replicate_succ, List.cons_append, firstTurn] at step ⊢
      rw [step]
      congr 1
      omega

/-- The moving loop gathers the ones below a position at the start. -/
theorem moveOnes_eq {index : List Bool} {i : ℕ} (inside : i ≤ index.length) :
    moveOnes index i = (List.replicate ((index.take i).count true) true ++
      List.replicate (i - (index.take i).count true) false ++ index.drop i,
        (index.take i).count true) := by
  induction i with
  | zero => rfl
  | succ i ih =>
      have below : i < index.length := inside
      have count : (index.take (i + 1)).count true =
          (index.take i).count true + if index[i] then 1 else 0 := by
        rw [List.take_add_one, List.getElem?_eq_getElem below, List.count_append]
        cases index[i] <;> rfl
      have fits : (index.take i).count true ≤ i :=
        List.count_le_length.trans (List.length_take_le i index)
      have before := ih (Nat.le_of_lt below)
      rw [moveOnes] at before
      rw [moveOnes, List.range_succ, List.foldl_append, before, List.foldl_cons, List.foldl_nil,
        count, List.drop_eq_getElem_cons below]
      generalize (index.take i).count true = c at fits
      obtain ⟨d, rfl⟩ := Nat.exists_eq_add_of_le fits
      have place : (List.replicate c true ++ List.replicate (c + d - c) false).length = c + d := by
        simp
      have read : (List.replicate c true ++ List.replicate (c + d - c) false ++
          index[c + d] :: index.drop (c + d + 1)).getD (c + d) false = index[c + d] := by
        rw [List.getD_append_right _ _ _ _ place.le, place, Nat.sub_self]
        rfl
      have zeros : c + d + 1 - (c + 1) = d := by omega
      simp only [read]
      cases bit : index[c + d] with
      | false =>
          have grown : c + d + 1 - c = d + 1 := by omega
          simp [grown, List.replicate_succ']
      | true =>
          have cleared : (List.replicate c true ++ List.replicate (c + d - c) false ++
              true :: index.drop (c + d + 1)).set (c + d) false =
                List.replicate c true ++ (false :: List.replicate d false ++
                  index.drop (c + d + 1)) := by
            rw [List.set_append_right _ _ place.le, place, Nat.sub_self, List.set_cons_zero,
              Nat.add_sub_cancel_left, List.append_assoc, ← List.replicate_succ,
              List.replicate_succ']
            simp
          have written : (List.replicate c true ++ (false :: List.replicate d false ++
              index.drop (c + d + 1))).set c true =
                List.replicate (c + 1) true ++ List.replicate d false ++
                  index.drop (c + d + 1) := by
            rw [List.set_append_right _ _ (by simp), List.length_replicate, Nat.sub_self,
              List.cons_append, List.set_cons_zero, List.replicate_succ']
            simp
          simp only [if_true, cleared, written, zeros]

/-- What follows is carried along. -/
theorem nextIndex_append {index next : List Bool} (b : Bool) (stepped : nextIndex index = some next) :
    nextIndex (index ++ [b]) = some (next ++ [b]) := by
  obtain ⟨i, found, rfl⟩ := Option.map_eq_some_iff.mp stepped
  have inside := (firstTurn_lt found).2
  have turned : ((index ++ [b]).set i false).set (i + 1) true =
      (index.set i false).set (i + 1) true ++ [b] := by
    rw [List.set_append_left _ _ (by omega), List.set_append_left _ _ (by simp; omega)]
  rw [nextIndex, firstTurn_append found [b], Option.map_some, turned]
  have place : i ≤ ((index.set i false).set (i + 1) true).length := by
    simp only [List.length_set]
    omega
  generalize (index.set i false).set (i + 1) true = moved at place
  rw [moveOnes_eq place, moveOnes_eq (by simp; omega), List.take_append_of_le_length place,
    List.drop_append_of_le_length place, List.append_assoc, List.append_assoc, List.append_assoc]

/-- The step from the last vector that ends with zero to the first that ends with one. -/
theorem nextIndex_turn (k m : ℕ) :
    nextIndex (List.replicate m false ++ List.replicate (k + 1) true ++ [false]) =
      some (List.replicate k true ++ List.replicate (m + 1) false ++ [true]) := by
  have split : List.replicate m false ++ List.replicate (k + 1) true ++ [false] =
      (List.replicate m false ++ List.replicate k true) ++ [true, false] := by
    simp [List.replicate_succ']
  have place : (List.replicate m false ++ List.replicate k true).length = m + k := by simp
  have turned : (((List.replicate m false ++ List.replicate k true) ++ [true, false]).set (m + k)
      false).set (m + k + 1) true =
        (List.replicate m false ++ List.replicate k true) ++ [false, true] := by
    rw [List.set_append_right _ _ place.le, List.set_append_right _ _ (by omega), place]
    simp
  have ones : (List.replicate m false ++ List.replicate k true).count true = k := by
    simp [List.count_replicate]
  rw [nextIndex, firstTurn_run, Option.map_some, split, Nat.zero_add, turned, moveOnes_eq (by simp),
    List.take_left' place, List.drop_left' place, ones, Nat.add_sub_cancel]
  simp [List.replicate_succ']

/-- The passes of `Comb` walk along the colexicographic order. -/
theorem nextIndex_colex (n k : ℕ) : (colex n k).IsChain fun u v => nextIndex u = some v :=
  colex_isChain (fun b _ _ => nextIndex_append b) nextIndex_turn n k

end Successor

section Comb

variable {n k : ℕ}

/-- The loop ends exactly at the last vector of the order. -/
theorem hasDone_iff {index : List Bool} (listed : index ∈ colex n k) :
    hasDone index n k = true ↔ index = List.replicate (n - k) false ++ List.replicate k true := by
  obtain ⟨size, ones⟩ := mem_colex.mp listed
  have fits : k ≤ n := by
    rw [← size, ← ones]
    exact List.count_le_length
  constructor
  · intro done
    have high : index.drop (n - k) = List.replicate k true := by
      rw [List.eq_replicate_iff, List.length_drop]
      refine ⟨by omega, fun b inside => ?_⟩
      simpa using List.all_eq_true.mp done b inside
    have low : index.take (n - k) = List.replicate (n - k) false := by
      rw [List.eq_replicate_iff, List.length_take]
      have none : (index.take (n - k)).count true = 0 := by
        have total := ones
        rw [← List.take_append_drop (n - k) index, List.count_append, high,
          List.count_replicate_self] at total
        omega
      refine ⟨by omega, fun b inside => ?_⟩
      cases b with
      | false => rfl
      | true => exact absurd inside (List.count_eq_zero.mp none)
    rw [← low, ← high, List.take_append_drop]
  · rintro rfl
    rw [hasDone, List.drop_left' (by simp)]
    simp

/-- The number of further vectors that are printed at a size. -/
def room (patternUpLimit patternSize : ℤ) : ℕ := ((patternUpLimit - patternSize + 1) / 2).toNat

theorem room_of_lt {patternUpLimit patternSize : ℤ} (below : patternSize < patternUpLimit) :
    room patternUpLimit patternSize = room patternUpLimit (patternSize + 2) + 1 := by
  unfold room
  omega

theorem room_of_le {patternUpLimit patternSize : ℤ} (full : patternUpLimit ≤ patternSize) :
    room patternUpLimit patternSize = 0 := by
  unfold room
  omega

/-- From a vector on, the loop prints the next vectors of the order while there is room. -/
theorem combLoop_eq (patternUpLimit : ℤ) {fuel : ℕ} {index : List Bool} {rest : List (List Bool)}
    (suffix : index :: rest <:+ colex n k) (enough : rest.length < fuel) (patternSize : ℤ) :
    combLoop n k patternUpLimit fuel index patternSize =
      some (rest.take (room patternUpLimit patternSize)) := by
  have listed : index ∈ colex n k := suffix.subset (by simp)
  have fits : k ≤ n := by
    obtain ⟨size, ones⟩ := mem_colex.mp listed
    rw [← size, ← ones]
    exact List.count_le_length
  have last : (index :: rest).getLast? =
      some (List.replicate (n - k) false ++ List.replicate k true) := by
    rw [← colex_getLast? fits]
    obtain ⟨before, whole⟩ := suffix
    rw [← whole, List.getLast?_append]
    simp [List.getLast?_cons]
  induction rest generalizing fuel index patternSize with
  | nil =>
      obtain ⟨fuel, rfl⟩ := Nat.exists_eq_succ_of_ne_zero (Nat.ne_of_gt enough)
      have done : hasDone index n k = true := (hasDone_iff listed).mpr (by simpa using last)
      rw [combLoop, if_pos done, List.take_nil]
  | cons next rest ih =>
      obtain ⟨fuel, rfl⟩ := Nat.exists_eq_succ_of_ne_zero (Nat.ne_of_gt (Nat.zero_lt_of_lt enough))
      have notDone : ¬ hasDone index n k = true := by
        intro done
        rw [(hasDone_iff listed).mp done, List.getLast?_cons_cons] at last
        have again : index ∈ next :: rest := by
          rw [(hasDone_iff listed).mp done]
          exact List.mem_of_getLast? last
        exact (List.nodup_cons.mp ((colex_nodup n k).sublist suffix.sublist)).1 again
      have stepped : nextIndex index = some next := by
        have chain := (nextIndex_colex n k).suffix suffix
        exact (List.isChain_cons_cons.mp chain).1
      have tail : next :: rest <:+ colex n k := (List.suffix_cons index (next :: rest)).trans suffix
      rw [combLoop, if_neg notDone, stepped]
      dsimp only
      split
      · next below =>
          rw [ih tail (Nat.lt_of_succ_lt_succ enough) (patternSize + 2)
            (tail.subset List.mem_cons_self) (by simpa using last), room_of_lt below]
          rfl
      · next full => rw [room_of_le (not_lt.mp full), List.take_zero]

/-- The vectors that one call of `Comb` prints: the order up to the limit, and at least one. -/
theorem combIndices_eq (patternUpLimit : ℤ) (fits : k ≤ n) {fuel : ℕ} (enough : n.choose k ≤ fuel) :
    combIndices fuel n k patternUpLimit =
      some ((colex n k).take (room patternUpLimit 2 + 1)) := by
  have head := colex_head? fits
  cases order : colex n k with
  | nil => simp [order] at head
  | cons first rest =>
      rw [order, List.head?_cons, Option.some.injEq] at head
      have size : rest.length + 1 = n.choose k := by
        rw [← colex_length, order, List.length_cons]
      subst head
      have whole : (List.replicate k true ++ List.replicate (n - k) false) :: rest <:+
          colex n k := order ▸ List.suffix_refl _
      have printed := combLoop_eq patternUpLimit whole (show rest.length < fuel by omega) 2
      simp only [combIndices, printed, Option.map_some, List.take_succ_cons]

theorem printed_ne_nil (fits : k ≤ n) (m : ℕ) : (colex n k).take (m + 1) ≠ [] := by
  have positive : 0 < n.choose k := Nat.choose_pos fits
  rw [← List.length_pos_iff, List.length_take, colex_length]
  omega

/-- The number of printed vectors. -/
theorem length_printed (patternUpLimit : ℤ) :
    ((colex n k).take (room patternUpLimit 2 + 1)).length =
      min (n.choose k) (max 1 ((patternUpLimit + 1) / 2).toNat) := by
  rw [List.length_take, colex_length, room]
  omega

end Comb

section Combinator

/-- A vector with its ones at the start has no next one. -/
theorem nextPermutation_none (k m : ℕ) :
    nextPermutation (List.replicate k true ++ List.replicate m false) = none := by
  induction k with
  | zero =>
      induction m with
      | zero => rfl
      | succ m ih =>
          rw [List.replicate_zero, List.nil_append] at ih
          rw [List.replicate_zero, List.nil_append, List.replicate_succ, nextPermutation, ih]
          simp only [List.getD_eq_getElem?_getD, List.getElem?_getD_replicate_default_eq]
          simp
  | succ k ih => simp [List.replicate_succ, nextPermutation, ih]

/-- The step from the last vector that starts with zero to the first that starts with one. -/
theorem nextPermutation_turn (k m : ℕ) :
    nextPermutation (false :: (List.replicate (k + 1) true ++ List.replicate m false)) =
      some (true :: (List.replicate (m + 1) false ++ List.replicate k true)) := by
  have ones : (List.replicate (k + 1) true : List Bool).length = k + 1 := List.length_replicate
  have read : (List.replicate (k + 1) true ++ List.replicate m false).getD k false = true := by
    rw [List.getD_append _ _ _ _ (by omega)]
    simp
  have above (j : ℕ) :
      (List.replicate (k + 1) true ++ List.replicate m false).getD (k + 1 + j) false = false := by
    rw [List.getD_append_right _ _ _ _ (by omega), ones, Nat.add_sub_cancel_left,
      List.getD_eq_getElem?_getD, List.getElem?_getD_replicate_default_eq]
  have found : ((List.range (List.replicate (k + 1) true ++ List.replicate m false).length).reverse.find?
      fun j => false < (List.replicate (k + 1) true ++ List.replicate m false).getD j false) =
        some k := by
    have high : ((List.range m).map (k + 1 + ·)).reverse.find? (fun j =>
        decide (false < (List.replicate (k + 1) true ++ List.replicate m false).getD j false)) =
          none := by
      rw [List.find?_eq_none]
      intro i listed
      obtain ⟨j, -, rfl⟩ := List.mem_map.mp (List.mem_reverse.mp listed)
      rw [above]
      decide
    rw [List.length_append, ones, List.length_replicate, List.range_add, List.reverse_append,
      List.find?_append, high, List.range_succ, List.reverse_append, Option.none_or,
      List.reverse_singleton, List.singleton_append, List.find?_cons_of_pos]
    rw [read]
    decide
  have turned : (List.replicate (k + 1) true ++ List.replicate m false).set k false =
      List.replicate k true ++ List.replicate (m + 1) false := by
    rw [List.replicate_succ', List.append_assoc, List.set_append_right _ _ (by simp)]
    simp [List.replicate_succ]
  rw [nextPermutation, nextPermutation_none]
  simp only [found, Option.map_some, read, turned, List.reverse_append, List.reverse_replicate]

/-- The library function walks along the lexicographic order. -/
theorem nextPermutation_lex (n k : ℕ) :
    (lex n k).IsChain fun u v => nextPermutation u = some v := by
  apply lex_isChain
  · intro b u v stepped
    simp [nextPermutation, stepped]
  · exact nextPermutation_turn

/-- From a vector on, the loop of `combinator` visits the rest of the order. -/
theorem permutations_eq {n r fuel : ℕ} {v : List Bool} {rest : List (List Bool)}
    (suffix : v :: rest <:+ lex n r) (enough : rest.length < fuel) :
    permutations fuel v = some (v :: rest) := by
  have fits : r ≤ n := by
    obtain ⟨size, ones⟩ := mem_lex.mp (suffix.subset List.mem_cons_self)
    rw [← size, ← ones]
    exact List.count_le_length
  have last : (v :: rest).getLast? =
      some (List.replicate r true ++ List.replicate (n - r) false) := by
    rw [← lex_getLast? fits]
    obtain ⟨before, whole⟩ := suffix
    rw [← whole, List.getLast?_append]
    simp [List.getLast?_cons]
  induction rest generalizing fuel v with
  | nil =>
      obtain ⟨fuel, rfl⟩ := Nat.exists_eq_succ_of_ne_zero (Nat.ne_of_gt enough)
      obtain rfl : v = _ := by simpa using last
      rw [permutations, nextPermutation_none]
  | cons next rest ih =>
      obtain ⟨fuel, rfl⟩ := Nat.exists_eq_succ_of_ne_zero (Nat.ne_of_gt (Nat.zero_lt_of_lt enough))
      have stepped : nextPermutation v = some next := by
        have chain := (nextPermutation_lex n r).suffix suffix
        exact (List.isChain_cons_cons.mp chain).1
      have tail : next :: rest <:+ lex n r := (List.suffix_cons v (next :: rest)).trans suffix
      have later := ih tail (Nat.lt_of_succ_lt_succ enough) (by simpa using last)
      rw [permutations, stepped]
      simp only [later, Option.map_some]

/-- The loop of `combinator` visits the vectors of the order. -/
theorem permutations_lex {n r fuel : ℕ} (fits : r ≤ n) (enough : n.choose r ≤ fuel) :
    permutations fuel (List.replicate (n - r) false ++ List.replicate r true) = some (lex n r) := by
  have head := lex_head? fits
  cases order : lex n r with
  | nil => simp [order] at head
  | cons first rest =>
      rw [order, List.head?_cons, Option.some.injEq] at head
      have size : (first :: rest).length = n.choose r := by rw [← lex_length, order]
      have whole : first :: rest <:+ lex n r := order ▸ List.suffix_refl _
      rw [← head]
      apply permutations_eq whole
      rw [List.length_cons] at size
      omega

/-- `combinator` counts the binomial coefficient in its 32-bit counter. -/
theorem combinator_eq {n r fuel : ℕ} (fits : r ≤ n) (enough : n.choose r ≤ fuel) :
    combinator fuel n r = some (toInt (n.choose r)) := by
  rw [combinator, permutations_lex fits enough, Option.map_some, lex_length]

end Combinator

end LogicRegression.FixNetwork
