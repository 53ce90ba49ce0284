import Mathlib.Data.Nat.Choose.Bounds
import LogicRegression.Proof.CreatePattern.Closure
import LogicRegression.Proof.CreatePattern.Levels

namespace LogicRegression.FixNetwork

open FixedWeight Binary

variable {inputNum : ℕ}

section Vector

/-- The assigning loop leaves the other inputs alone. -/
theorem foldl_update_of_notMem {realPI : List (Fin inputNum)} {values : List Bool}
    (x : Fin inputNum → Bool) {j : Fin inputNum} (outside : j ∉ realPI) :
    (realPI.zip values).foldl (fun x entry => Function.update x entry.1 entry.2) x j = x j := by
  induction realPI generalizing values x with
  | nil => rfl
  | cons p realPI ih =>
      rw [List.mem_cons, not_or] at outside
      cases values with
      | nil => rfl
      | cons b values =>
          rw [List.zip_cons_cons, List.foldl_cons, ih _ outside.2, Function.update_of_ne outside.1]

/-- The assigning loop gives each distinct input its value. -/
theorem map_foldl_update {realPI : List (Fin inputNum)} {values : List Bool}
    (distinct : realPI.Nodup) (size : values.length = realPI.length) (x : Fin inputNum → Bool) :
    realPI.map ((realPI.zip values).foldl (fun x entry => Function.update x entry.1 entry.2) x) =
      values := by
  induction realPI generalizing values x with
  | nil => exact (List.length_eq_zero_iff.mp size).symm
  | cons p realPI ih =>
      cases values with
      | nil => simp at size
      | cons b values =>
          rw [List.nodup_cons] at distinct
          rw [List.zip_cons_cons, List.foldl_cons, List.map_cons,
            foldl_update_of_notMem _ distinct.1, Function.update_self,
            ih distinct.2 (by simpa using size)]

/-- On distinct inputs that start at zero, setting the chosen ones is assigning all. -/
theorem markBits_eq {realPI : List (Fin inputNum)} (distinct : realPI.Nodup) (index : List Bool) :
    markBits realPI index = assignBits realPI index := by
  unfold markBits assignBits
  have start : ∀ j ∈ realPI, (fun _ => false : Fin inputNum → Bool) j = false := fun _ _ => rfl
  generalize (fun _ => false : Fin inputNum → Bool) = x at start
  induction realPI generalizing index x with
  | nil => rfl
  | cons p realPI ih =>
      rw [List.nodup_cons] at distinct
      cases index with
      | nil => rfl
      | cons b index =>
          have same : (if b then Function.update x p true else x) = Function.update x p b := by
            cases b with
            | true => rfl
            | false =>
                have zero := start p List.mem_cons_self
                change x = Function.update x p false
                rw [← zero, Function.update_eq_self]
          rw [List.zip_cons_cons, List.foldl_cons, List.foldl_cons, same]
          apply ih distinct.2
          intro j inside
          have apart : j ≠ p := fun equal => distinct.1 (equal ▸ inside)
          rw [Function.update_of_ne apart]
          exact start j (List.mem_cons_of_mem p inside)

/-- The number of real inputs at one. -/
def weight (realPI : List (Fin inputNum)) (x : Fin inputNum → Bool) : ℕ :=
  (realPI.map x).count true

theorem weight_flip (realPI : List (Fin inputNum)) (x : Fin inputNum → Bool) :
    weight realPI (flip x) + weight realPI x = realPI.length := by
  have ones (y : Fin inputNum → Bool) : weight realPI y = realPI.countP y := by
    rw [weight, List.count, List.countP_map]
    congr 1
    funext j
    simp
  have total := List.length_eq_countP_add_countP x (l := realPI)
  have zeros : weight realPI (flip x) = realPI.countP fun j => ¬ x j = true := by
    rw [ones]
    congr 1
    funext j
    simp [flip]
  rw [zeros, ones]
  omega

/-- The vector of a subset has exactly its inputs at one. -/
def indicator (chosen : Finset (Fin inputNum)) : Fin inputNum → Bool := fun j => decide (j ∈ chosen)

variable {realPI : List (Fin inputNum)} (distinct : realPI.Nodup)
include distinct

theorem map_assignBits {values : List Bool} (size : values.length = realPI.length) :
    realPI.map (assignBits realPI values) = values := map_foldl_update distinct size _

theorem map_markBits {index : List Bool} (size : index.length = realPI.length) :
    realPI.map (markBits realPI index) = index := by
  rw [markBits_eq distinct]
  exact map_assignBits distinct size

/-- A vector that is zero at the other inputs is assigned by its own values. -/
theorem assignBits_of_zero {x : Fin inputNum → Bool} (zero : ∀ j ∉ realPI, x j = false) :
    assignBits realPI (realPI.map x) = x := by
  funext j
  by_cases real : j ∈ realPI
  · have size : (realPI.map x).length = realPI.length := List.length_map x
    have values := map_assignBits distinct size
    exact List.map_inj_left.mp values j real
  · exact (foldl_update_of_notMem _ real).trans (zero j real).symm

theorem weight_mirror {index : List Bool} (size : index.length = realPI.length) :
    weight realPI (assignBits realPI.reverse index) = index.count true := by
  have values : realPI.reverse.map (assignBits realPI.reverse index) = index :=
    map_assignBits (List.nodup_reverse.mpr distinct) (by simpa using size)
  rw [List.map_reverse] at values
  rw [weight, ← List.count_reverse, values]

/-- A subset of the real inputs is marked by its index vector. -/
theorem markBits_indicator {chosen : Finset (Fin inputNum)} (inside : ∀ j ∈ chosen, j ∈ realPI) :
    markBits realPI (realPI.map (indicator chosen)) = indicator chosen := by
  rw [markBits_eq distinct]
  apply assignBits_of_zero distinct
  intro j outside
  exact decide_eq_false fun listed => outside (inside j listed)

end Vector

section Level

variable {realPI : List (Fin inputNum)} {k : ℕ}

/-- Before a level every vector has fewer ones or more ones than the level writes. -/
structure Below (realPI : List (Fin inputNum)) (k : ℕ) (s : Patterns inputNum) : Prop
    extends Indexed s where
  weights : ∀ x ∈ s.iogenInputPatterns,
    weight realPI x < k ∨ realPI.length < weight realPI x + k

theorem empty_below (realPI : List (Fin inputNum)) : Below realPI 0 Patterns.empty :=
  ⟨empty_closed.toIndexed, by simp [Patterns.empty]⟩

/-- The vectors of a level have as many ones as the level, or as many zeros. -/
theorem Below.pushPair {s : Patterns inputNum} (below : Below realPI (k + 1) s)
    {x : Fin inputNum → Bool} (ones : weight realPI x = k) :
    Below realPI (k + 1) ((s.pushNew x).pushNew (flip x)) := by
  refine ⟨below.toIndexed.pushNew.pushNew, fun y listed => ?_⟩
  have total := weight_flip realPI x
  rcases below.mem_pushPair.mp listed with earlier | rfl | rfl
  · exact below.weights y earlier
  · omega
  · omega

theorem Below.succ {s : Patterns inputNum} (below : Below realPI k s) : Below realPI (k + 1) s :=
  ⟨below.toIndexed, fun x listed => by
    have weights := below.weights x listed
    omega⟩

variable (distinct : realPI.Nodup)
include distinct

theorem weight_markBits {index : List Bool} (listed : index ∈ colex realPI.length k) :
    weight realPI (markBits realPI index) = k := by
  obtain ⟨size, ones⟩ := mem_colex.mp listed
  rw [weight, map_markBits distinct size, ones]

theorem Below.printRes {s : Patterns inputNum} (below : Below realPI (k + 1) s) (twoOrder : Bool)
    {index : List Bool} (listed : index ∈ colex realPI.length k) :
    Below realPI (k + 1) (printRes realPI twoOrder s index) := by
  have first := below.pushPair (weight_markBits distinct listed)
  cases twoOrder with
  | false => exact first
  | true =>
      obtain ⟨size, ones⟩ := mem_colex.mp listed
      have mirrored : weight realPI (assignBits realPI.reverse index) = k := by
        rw [weight_mirror distinct size, ones]
      exact first.pushPair mirrored

theorem Below.printAll {s : Patterns inputNum} (below : Below realPI (k + 1) s) (twoOrder : Bool)
    {indices : List (List Bool)} (listed : ∀ index ∈ indices, index ∈ colex realPI.length k) :
    Below realPI (k + 1) ((printAll realPI twoOrder s indices).getLastD s) := by
  induction indices generalizing s with
  | nil => exact below
  | cons index indices ih =>
      rw [FixNetwork.printAll, List.getLastD_cons]
      apply ih (below.printRes distinct twoOrder (listed index List.mem_cons_self))
      exact fun other inside => listed other (List.mem_cons_of_mem index inside)

omit distinct in
/-- Without mirror images a level adds the marked vectors and their complements. -/
theorem mem_printAll {s : Patterns inputNum} (indexed : Indexed s) (indices : List (List Bool))
    (y : Fin inputNum → Bool) :
    y ∈ ((printAll realPI false s indices).getLastD s).iogenInputPatterns ↔
      y ∈ s.iogenInputPatterns ∨
        ∃ index ∈ indices, y = markBits realPI index ∨ y = flip (markBits realPI index) := by
  induction indices generalizing s with
  | nil => simp [printAll]
  | cons index indices ih =>
      have step := indexed.mem_pushPair (x := markBits realPI index) (y := y)
      have next : Indexed (printRes realPI false s index) :=
        (indexed.pushNew (x := markBits realPI index)).pushNew
      change y ∈ (printRes realPI false s index).iogenInputPatterns ↔ _ at step
      rw [FixNetwork.printAll, List.getLastD_cons, ih next, step, List.exists_mem_cons_iff,
        or_assoc]

/-- After a level the list has all vectors of the level with their complements. -/
def Complete (realPI : List (Fin inputNum)) (k : ℕ) (s : Patterns inputNum) : Prop :=
  ∀ chosen : Finset (Fin inputNum), (∀ j ∈ chosen, j ∈ realPI) → chosen.card = k →
    indicator chosen ∈ s.iogenInputPatterns ∧ flip (indicator chosen) ∈ s.iogenInputPatterns

omit distinct in
/-- Each index vector of the level is that of a subset. -/
theorem exists_chosen {index : List Bool} (distinct : realPI.Nodup)
    (listed : index ∈ colex realPI.length k) :
    ∃ chosen : Finset (Fin inputNum), (∀ j ∈ chosen, j ∈ realPI) ∧ chosen.card = k ∧
      indicator chosen = markBits realPI index := by
  obtain ⟨size, ones⟩ := mem_colex.mp listed
  let chosen := realPI.toFinset.filter fun j => markBits realPI index j = true
  have vector : indicator chosen = markBits realPI index := by
    funext j
    by_cases real : j ∈ realPI
    · simp [indicator, chosen, real]
    · have zero : markBits realPI index j = false := by
        rw [markBits_eq distinct]
        exact foldl_update_of_notMem _ real
      simp [indicator, chosen, real, zero]
  refine ⟨chosen, ?_, ?_, vector⟩
  · intro j inside
    exact List.mem_toFinset.mp (Finset.mem_filter.mp inside).1
  · rw [← weight_markBits distinct listed, weight, List.count, List.countP_map,
      List.countP_eq_length_filter, ← List.toFinset_card_of_nodup (distinct.filter _),
      List.toFinset_filter]
    congr 1
    ext j
    simp [chosen]

/-- A level without mirror images is complete exactly when all its index vectors were printed:
the vectors of earlier levels have other numbers of ones. -/
theorem complete_iff {s : Patterns inputNum} (below : Below realPI k s)
    (half : 2 * k < realPI.length) {indices : List (List Bool)}
    (prefixed : indices <+: colex realPI.length k) :
    Complete realPI k ((printAll realPI false s indices).getLastD s) ↔
      indices.length = realPI.length.choose k := by
  constructor
  · intro complete
    have all : colex realPI.length k ⊆ indices := by
      intro index listed
      obtain ⟨chosen, inside, card, vector⟩ := exists_chosen distinct listed
      have present := (complete chosen inside card).1
      have ones := weight_markBits distinct listed
      rw [vector, mem_printAll below.toIndexed] at present
      rcases present with earlier | ⟨other, printed, same | same⟩
      · have weights := below.weights _ earlier
        omega
      · have indexValues := map_markBits distinct (mem_colex.mp listed).1
        have otherValues := map_markBits distinct (mem_colex.mp (prefixed.subset printed)).1
        rw [← indexValues, same, otherValues]
        exact printed
      · have total := weight_flip realPI (markBits realPI other)
        have otherOnes := weight_markBits distinct (prefixed.subset printed)
        rw [← same] at total
        omega
    have atLeast := ((colex_nodup realPI.length k).subperm all).length_le
    have atMost := prefixed.length_le
    rw [colex_length] at atLeast atMost
    exact Nat.le_antisymm atMost atLeast
  · intro count chosen inside card
    have whole : indices = colex realPI.length k := by
      apply prefixed.eq_of_length
      rw [count, colex_length]
    have marked := markBits_indicator distinct inside
    have listed : realPI.map (indicator chosen) ∈ indices := by
      rw [whole, mem_colex, List.length_map, List.count, List.countP_map,
        List.countP_eq_length_filter, ← List.toFinset_card_of_nodup (distinct.filter _), ← card]
      refine ⟨rfl, congrArg Finset.card ?_⟩
      ext j
      simp only [List.toFinset_filter, Finset.mem_filter, List.mem_toFinset, Function.comp_apply,
        indicator, beq_true, decide_eq_true_eq]
      exact ⟨fun both => both.2, fun chosenHere => ⟨inside j chosenHere, chosenHere⟩⟩
    rw [mem_printAll below.toIndexed, mem_printAll below.toIndexed]
    exact ⟨.inr ⟨_, listed, .inl marked.symm⟩, .inr ⟨_, listed, .inr (congrArg flip marked.symm)⟩⟩

omit distinct in
/-- All index vectors of a level are printed in the first level, and where the limit has room
for two vectors of each subset but the last. -/
theorem printed_all_iff {n : ℕ} (half : 2 * k < n) (patternUpLimit : ℤ) :
    ((colex n k).take (room patternUpLimit 2 + 1)).length = n.choose k ↔
      k = 0 ∨ 2 * (n.choose k : ℤ) ≤ patternUpLimit + 1 := by
  have positive : 0 < n.choose k := Nat.choose_pos (by omega)
  have single : n.choose k = 1 ↔ k = 0 := by
    rw [Nat.choose_eq_one_iff]
    omega
  rw [length_printed, min_eq_left_iff, ← single]
  omega

end Level

section Run

variable {realPI : List (Fin inputNum)}

/-- The state after the `Comb` call of a level. -/
def Level.after (level : Level inputNum) : Patterns inputNum :=
  level.visited.getLastD Patterns.empty

/-- Before a level the list has no vector with as many ones or zeros as the level, and the level
without mirror images is complete exactly when the limit has room for it. -/
theorem levelList_complete (distinct : realPI.Nodup) (patternUpLimit : ℤ) (uninit : ℕ → ℤ)
    {rounds k i : ℕ} {s : Patterns inputNum} {level : Level inputNum} (below : Below realPI k s)
    (fits : 2 * (k + rounds) ≤ realPI.length)
    (present : (levelList patternUpLimit uninit realPI rounds k s)[i]? = some level)
    (flag : level.twoOrder = false) :
    Complete realPI (k + i) level.after ↔
      k + i = 0 ∨ 2 * (realPI.length.choose (k + i) : ℤ) ≤ patternUpLimit + 1 := by
  induction rounds generalizing k i s with
  | zero => simp [levelList] at present
  | succ rounds ih =>
      let twoOrder := twoOrderAt realPI.length patternUpLimit uninit k
      let indices := (colex realPI.length k).take (room patternUpLimit 2 + 1)
      have prefixed : indices <+: colex realPI.length k := List.take_prefix _ _
      rw [levelList] at present
      cases i with
      | zero =>
          have half : 2 * k < realPI.length := by omega
          obtain rfl := Option.some.inj present
          have plain : twoOrder = false := flag
          have after : Level.after ⟨twoOrder, printAll realPI twoOrder s indices⟩ =
              (printAll realPI false s indices).getLastD s := by
            rw [Level.after, plain]
            obtain ⟨first, tail, same⟩ := List.exists_cons_of_ne_nil
              (printed_ne_nil (show k ≤ realPI.length by omega) (room patternUpLimit 2))
            change (printAll realPI false s indices).getLastD _ = _
            rw [show indices = first :: tail from same, printAll, List.getLastD_cons,
              List.getLastD_cons]
          change Complete realPI (k + 0) (Level.after ⟨twoOrder, printAll realPI twoOrder s indices⟩) ↔ _
          rw [after, Nat.add_zero, complete_iff distinct below half prefixed]
          exact printed_all_iff half patternUpLimit
      | succ i =>
          have next := below.succ.printAll distinct twoOrder fun index listed =>
            prefixed.subset listed
          have step : k + (i + 1) = k + 1 + i := by omega
          rw [List.getElem?_cons_succ] at present
          rw [step]
          exact ih next (by omega) present

/-- The levels of a call: each one that is not over the limit is enumerated completely exactly
when it is the first one or the limit has room for two vectors of each subset but the last. -/
theorem levels_complete_iff (distinct : realPI.Nodup) (patternUpLimit : ℤ) (uninit : ℕ → ℤ) :
    ∃ enough, ∀ fuel ≥ enough, ∃ found,
      levels fuel realPI.length patternUpLimit realPI uninit (realPI.length / 2) 0 0 false
        Patterns.empty = some found ∧
      found.length = realPI.length / 2 ∧
      ∀ (k : ℕ) (level : Level inputNum), found[k]? = some level → level.twoOrder = false →
        (Complete realPI k level.after ↔
          k = 0 ∨ 2 * (realPI.length.choose k : ℤ) ≤ patternUpLimit + 1) := by
  refine ⟨2 ^ realPI.length, fun fuel enough => ⟨_, levels_run patternUpLimit uninit enough,
    levelList_length _ _ _ _ _ _, fun k level present flag => ?_⟩⟩
  have exact := levelList_complete distinct patternUpLimit uninit (empty_below realPI) (by omega)
    present flag
  rwa [Nat.zero_add] at exact

/-- Four real inputs. -/
def fourRealPI : List (Fin 4) := [0, 1, 2, 3]

theorem levels_complete_iff_sample :
    ∃ enough, ∀ fuel ≥ enough, ∃ found,
      levels fuel 4 7 fourRealPI (fun _ => 0) 2 0 0 false Patterns.empty = some found ∧
      ∀ level, found[1]? = some level → level.twoOrder = false →
        Complete fourRealPI 1 level.after := by
  have distinct : fourRealPI.Nodup := by decide
  obtain ⟨enough, runs⟩ := levels_complete_iff distinct 7 fun _ => 0
  refine ⟨enough, fun fuel bound => ?_⟩
  obtain ⟨found, returned, -, complete⟩ := runs fuel bound
  exact ⟨found, returned, fun level present flag => (complete 1 level present flag).mpr (.inr (by
    decide))⟩

/-- The four subsets of the second level fit a limit of four, but only two of them are printed. -/
theorem levels_incomplete :
    ¬ ∀ (fuel : ℕ) (patternUpLimit : ℤ) (realPI : List (Fin 4)) (uninit : ℕ → ℤ)
      (found : List (Level 4)) (k : ℕ) (level : Level 4), realPI.Nodup →
      levels fuel realPI.length patternUpLimit realPI uninit (realPI.length / 2) 0 0 false
        Patterns.empty = some found →
      found[k]? = some level → (realPI.length.choose k : ℤ) ≤ patternUpLimit →
      level.twoOrder = false → Complete realPI k level.after := by
  intro all
  have second : ((levels 10 fourRealPI.length 4 fourRealPI (fun _ => 0) (fourRealPI.length / 2) 0 0
      false Patterns.empty).bind fun found => found[1]?).map (fun level =>
        (level.twoOrder, decide (indicator {3} ∈ level.after.iogenInputPatterns))) =
          some (false, false) := by
    decide
  obtain ⟨level, found, facts⟩ := Option.map_eq_some_iff.mp second
  obtain ⟨run, returned, present⟩ := Option.bind_eq_some_iff.mp found
  obtain ⟨flag, missing⟩ := Prod.mk.inj facts
  have complete := all 10 4 fourRealPI (fun _ => 0) run 1 level (by decide) returned present
    (by decide) flag
  have chosen := (complete {3} (by decide) (by decide)).1
  exact of_decide_eq_false missing chosen

end Run

end LogicRegression.FixNetwork
