import LogicRegression.Proof.CreatePattern.Completeness

namespace LogicRegression.FixNetwork

open FixedWeight Binary

variable {inputNum : ℕ}

section Keys

variable {s : Patterns inputNum} {x : Fin inputNum → Bool}

/-- The vectors whose keys were seen. -/
def keys (s : Patterns inputNum) : Finset (Fin inputNum → Bool) :=
  Finset.univ.filter fun x => toStr x ∈ s.ppp

@[simp] theorem mem_keys : x ∈ keys s ↔ toStr x ∈ s.ppp := by simp [keys]

@[simp] theorem keys_empty : keys (Patterns.empty : Patterns inputNum) = ∅ := by
  ext x
  simp [Patterns.empty]

theorem keys_record : keys (s.record x) = insert x (keys s) := by
  ext y
  rw [Finset.mem_insert, mem_keys, mem_keys, Patterns.record]
  dsimp only
  split
  · next known =>
      constructor
      · exact .inr
      · intro either
        cases either with
        | inl same => exact same ▸ known
        | inr listed => exact listed
  · rw [List.mem_cons, toStr_inj]

theorem keys_pushNew : keys (s.pushNew x) = insert x (keys s) := by
  rw [Patterns.pushNew]
  split
  · next known => exact (Finset.insert_eq_of_mem (mem_keys.mpr known)).symm
  · exact keys_record

/-- A draw that is new adds its key and that of its complement. -/
theorem keys_recordPair (fresh : x ∉ keys s) :
    keys (s.recordPair x) = insert (flip x) (insert x (keys s)) := by
  rw [Patterns.recordPair, if_neg fun known => fresh (mem_keys.mpr known), keys_record, keys_record]

theorem mem_keys_pushPair {y : Fin inputNum → Bool} :
    y ∈ keys ((s.pushNew x).pushNew (flip x)) ↔ y ∈ keys s ∨ y = x ∨ y = flip x := by
  rw [keys_pushNew, keys_pushNew, Finset.mem_insert, Finset.mem_insert]
  tauto

end Keys

section Candidates

variable (realPI : List (Fin inputNum))

/-- The random loops draw vectors that are zero at the other inputs. -/
def candidates : Finset (Fin inputNum → Bool) :=
  Finset.univ.filter fun x => ∀ j ∉ realPI, x j = false

variable {realPI}

@[simp] theorem mem_candidates {x : Fin inputNum → Bool} :
    x ∈ candidates realPI ↔ ∀ j ∉ realPI, x j = false := by simp [candidates]

theorem assignBits_mem (values : List Bool) : assignBits realPI values ∈ candidates realPI :=
  mem_candidates.mpr fun _ outside => foldl_update_of_notMem _ outside

variable (distinct : realPI.Nodup)
include distinct

/-- A candidate is assigned by its own values. -/
theorem assignBits_map {x : Fin inputNum → Bool} (inside : x ∈ candidates realPI) :
    assignBits realPI (realPI.map x) = x := assignBits_of_zero distinct (mem_candidates.mp inside)

theorem assignBits_reverse {values : List Bool} (size : values.length = realPI.length) :
    assignBits realPI.reverse values = assignBits realPI values.reverse := by
  have mirrored : realPI.reverse.map (assignBits realPI.reverse values) = values :=
    map_assignBits (List.nodup_reverse.mpr distinct) (by simpa using size)
  have inside : assignBits realPI.reverse values ∈ candidates realPI :=
    mem_candidates.mpr fun j outside => foldl_update_of_notMem _ (by simpa using outside)
  rw [List.map_reverse] at mirrored
  rw [← mirrored, List.reverse_reverse, mirrored, assignBits_map distinct inside]

/-- There is one candidate for each assignment of the real inputs. -/
theorem card_candidates : (candidates realPI).card = 2 ^ realPI.length := by
  have image : candidates realPI = Finset.univ.image fun values : Fin realPI.length → Bool =>
      assignBits realPI (List.ofFn values) := by
    ext x
    rw [Finset.mem_image]
    constructor
    · intro inside
      have values : (List.ofFn fun k : Fin realPI.length => x realPI[k]) = realPI.map x :=
        List.ofFn_getElem_eq_map realPI x
      refine ⟨fun k => x realPI[k], Finset.mem_univ _, ?_⟩
      rw [values]
      exact assignBits_map distinct inside
    · rintro ⟨values, -, rfl⟩
      exact assignBits_mem _
  rw [image, Finset.card_image_of_injective, Finset.card_univ, Fintype.card_fun, Fintype.card_bool,
    Fintype.card_fin]
  intro first second same
  have firstValues := map_assignBits distinct (List.length_ofFn (f := first))
  have secondValues := map_assignBits distinct (List.length_ofFn (f := second))
  apply List.ofFn_injective
  rw [← firstValues, ← secondValues]
  exact congrArg (realPI.map ·) same

end Candidates

section Levels

variable (n : ℕ) (patternUpLimit : ℤ) (uninit : ℕ → ℤ)

/-- The value vectors of a level: the first ones of the order, and their mirror images when the
flag is set. -/
def levelVectors (k : ℕ) : Finset (List Bool) :=
  let first := (colex n k).take (max 1 ((patternUpLimit + 1) / 2).toNat)
  if twoOrderAt n patternUpLimit uninit k then (first ++ first.map List.reverse).toFinset
  else first.toFinset

variable {n patternUpLimit uninit}

theorem levelVectors_weight {k : ℕ} {v : List Bool}
    (listed : v ∈ levelVectors n patternUpLimit uninit k) : v.length = n ∧ v.count true = k := by
  have first {u : List Bool}
      (taken : u ∈ (colex n k).take (max 1 ((patternUpLimit + 1) / 2).toNat)) :
      u.length = n ∧ u.count true = k := mem_colex.mp (List.mem_of_mem_take taken)
  rw [levelVectors] at listed
  split at listed
  · rw [List.mem_toFinset, List.mem_append, List.mem_map] at listed
    rcases listed with own | ⟨u, taken, rfl⟩
    · exact first own
    · rw [List.length_reverse, List.count_reverse]
      exact first taken
  · exact first (List.mem_toFinset.mp listed)

/-- A level lists no more vectors than the limit asks for. -/
theorem card_levelVectors_le (nonneg : 0 ≤ patternUpLimit) (k : ℕ) :
    ((levelVectors n patternUpLimit uninit k).card : ℤ) ≤ patternUpLimit + 2 := by
  have taken := (colex n k).length_take_le (max 1 ((patternUpLimit + 1) / 2).toNat)
  have listed : (levelVectors n patternUpLimit uninit k).card ≤
      2 * max 1 ((patternUpLimit + 1) / 2).toNat := by
    rw [levelVectors]
    split
    · refine (List.toFinset_card_le _).trans ?_
      rw [List.length_append, List.length_map]
      omega
    · exact (List.toFinset_card_le _).trans (by omega)
  omega

variable {realPI : List (Fin inputNum)} (distinct : realPI.Nodup)
include distinct

/-- One call adds a vector and its complement, and with the flag also their mirror images. -/
theorem mem_keys_printRes {s : Patterns inputNum} (twoOrder : Bool) {index : List Bool}
    (size : index.length = realPI.length) {x : Fin inputNum → Bool} :
    x ∈ keys (printRes realPI twoOrder s index) ↔ x ∈ keys s ∨
      ∃ v, (v = index ∨ twoOrder = true ∧ v = index.reverse) ∧
        (x = assignBits realPI v ∨ x = flip (assignBits realPI v)) := by
  rw [printRes, markBits_eq distinct]
  cases twoOrder with
  | false =>
      have pair := mem_keys_pushPair (s := s) (x := assignBits realPI index) (y := x)
      simpa using pair
  | true =>
      simp only [if_true, mem_keys_pushPair, assignBits_reverse distinct size, true_and]
      rw [or_assoc]
      simp only [or_and_right, exists_or, exists_eq_left]

theorem mem_keys_printAll (twoOrder : Bool) {s : Patterns inputNum} {indices : List (List Bool)}
    (size : ∀ index ∈ indices, index.length = realPI.length) {x : Fin inputNum → Bool} :
    x ∈ keys ((printAll realPI twoOrder s indices).getLastD s) ↔ x ∈ keys s ∨
      ∃ v ∈ (if twoOrder then (indices ++ indices.map List.reverse).toFinset
        else indices.toFinset), x = assignBits realPI v ∨ x = flip (assignBits realPI v) := by
  have values (indices : List (List Bool)) (v : List Bool) :
      v ∈ (if twoOrder then (indices ++ indices.map List.reverse).toFinset
        else indices.toFinset) ↔
          ∃ index ∈ indices, v = index ∨ twoOrder = true ∧ v = index.reverse := by
    cases twoOrder with
    | false => simp
    | true =>
        simp only [if_true, List.mem_toFinset, List.mem_append, List.mem_map, true_and]
        constructor
        · rintro (own | ⟨u, taken, rfl⟩)
          · exact ⟨v, own, .inl rfl⟩
          · exact ⟨u, taken, .inr rfl⟩
        · rintro ⟨u, taken, rfl | rfl⟩
          · exact .inl taken
          · exact .inr ⟨u, taken, rfl⟩
  simp only [values]
  induction indices generalizing s with
  | nil => simp [printAll]
  | cons index indices ih =>
      have own := mem_keys_printRes distinct twoOrder (s := s) (size index List.mem_cons_self)
        (x := x)
      have later := ih (s := printRes realPI twoOrder s index)
        fun other inside => size other (List.mem_cons_of_mem index inside)
      rw [printAll, List.getLastD_cons]
      apply later.trans
      rw [own]
      simp only [List.exists_mem_cons_iff, or_and_right, exists_or, or_assoc]

/-- The keys after some levels. -/
theorem mem_keys_levelList (rounds k : ℕ) {s : Patterns inputNum} {x : Fin inputNum → Bool} :
    x ∈ keys (((levelList patternUpLimit uninit realPI rounds k s).flatMap Level.visited).getLastD s) ↔
      x ∈ keys s ∨ ∃ i < rounds, ∃ v ∈ levelVectors realPI.length patternUpLimit uninit (k + i),
        x = assignBits realPI v ∨ x = flip (assignBits realPI v) := by
  induction rounds generalizing k s with
  | zero => simp [levelList]
  | succ rounds ih =>
      have size : ∀ index ∈ (colex realPI.length k).take (room patternUpLimit 2 + 1),
          index.length = realPI.length := fun index taken =>
        (mem_colex.mp (List.mem_of_mem_take taken)).1
      have limit : room patternUpLimit 2 + 1 = max 1 ((patternUpLimit + 1) / 2).toNat := by
        rw [room]
        omega
      have own := mem_keys_printAll distinct
        (twoOrderAt realPI.length patternUpLimit uninit k) (s := s) size (x := x)
      have shift (i : ℕ) : k + 1 + i = k + (i + 1) := by omega
      rw [levelList, List.flatMap_cons, getLastD_append, ih, own, limit, or_assoc]
      simp only [shift]
      rw [Nat.exists_lt_succ_left]
      rfl

end Levels

end LogicRegression.FixNetwork
