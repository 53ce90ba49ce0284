import LogicRegression.Proof.CreatePattern.Keys

namespace LogicRegression.FixNetwork

open FixedWeight Binary

variable {inputNum : ℕ} {realPI : List (Fin inputNum)}

section Count

variable (realPI) in
/-- The number of candidates among a new vector and its complement. -/
def share : ℕ := if 0 < realPI.length ∧ realPI.length = inputNum then 2 else 1

variable (distinct : realPI.Nodup)
include distinct

theorem length_eq_iff : realPI.length = inputNum ↔ ∀ j, j ∈ realPI := by
  have card : realPI.toFinset.card = realPI.length := List.toFinset_card_of_nodup distinct
  constructor
  · intro size j
    have all : realPI.toFinset = Finset.univ := by
      rw [← Finset.card_eq_iff_eq_univ, card, size, Fintype.card_fin]
    exact List.mem_toFinset.mp (all ▸ Finset.mem_univ j)
  · intro all
    have whole : realPI.toFinset = Finset.univ := by
      ext j
      simp [all j]
    rw [← card, whole, Finset.card_univ, Fintype.card_fin]

/-- The complement of a candidate is a candidate when all inputs are real. -/
theorem flip_mem_candidates {x : Fin inputNum → Bool} (inside : x ∈ candidates realPI) :
    flip x ∈ candidates realPI ↔ realPI.length = inputNum := by
  rw [length_eq_iff distinct, mem_candidates]
  constructor
  · intro zero j
    by_contra outside
    have one : flip x j = true := by simp [flip, mem_candidates.mp inside j outside]
    exact absurd (zero j outside) (by simp [one])
  · exact fun all j outside => absurd (all j) outside

theorem weight_assignBits {values : List Bool} (size : values.length = realPI.length) :
    weight realPI (assignBits realPI values) = values.count true := by
  rw [weight, map_assignBits distinct size]

omit distinct in
variable (realPI) in
/-- The state when the levels have ended. -/
def enumerated (patternUpLimit : ℤ) (uninit : ℕ → ℤ) : Patterns inputNum :=
  ((levelList patternUpLimit uninit realPI (realPI.length / 2) 0 Patterns.empty).flatMap
    Level.visited).getLastD Patterns.empty

variable {patternUpLimit : ℤ} {uninit : ℕ → ℤ}

omit distinct in
variable (realPI patternUpLimit uninit) in
/-- The value vectors of all levels. -/
def allVectors : Finset (List Bool) :=
  (Finset.range (realPI.length / 2)).biUnion (levelVectors realPI.length patternUpLimit uninit)

omit distinct in
theorem allVectors_size {v : List Bool} (listed : v ∈ allVectors realPI patternUpLimit uninit) :
    v.length = realPI.length ∧ v.count true < realPI.length / 2 := by
  obtain ⟨k, inside, own⟩ := Finset.mem_biUnion.mp listed
  obtain ⟨size, ones⟩ := levelVectors_weight own
  exact ⟨size, ones ▸ Finset.mem_range.mp inside⟩

omit distinct in
/-- The levels have vectors of different weights. -/
theorem card_allVectors : (allVectors realPI patternUpLimit uninit).card =
    ∑ k ∈ Finset.range (realPI.length / 2),
      (levelVectors realPI.length patternUpLimit uninit k).card := by
  apply Finset.card_biUnion
  intro k _ l _ apart
  rw [Function.onFun, Finset.disjoint_left]
  intro v first second
  exact apart ((levelVectors_weight first).2.symm.trans (levelVectors_weight second).2)

/-- The keys of the levels are those of the marked vectors and of their complements. -/
theorem keys_enumerated : keys (enumerated realPI patternUpLimit uninit) =
    (allVectors realPI patternUpLimit uninit).image (assignBits realPI) ∪
      (allVectors realPI patternUpLimit uninit).image fun v => flip (assignBits realPI v) := by
  ext x
  rw [enumerated, mem_keys_levelList distinct]
  simp only [keys_empty, Finset.notMem_empty, false_or, Nat.zero_add, allVectors, Finset.mem_union,
    Finset.mem_image, Finset.mem_biUnion, Finset.mem_range]
  constructor
  · rintro ⟨k, inside, v, own, rfl | rfl⟩
    · exact .inl ⟨v, ⟨k, inside, own⟩, rfl⟩
    · exact .inr ⟨v, ⟨k, inside, own⟩, rfl⟩
  · rintro (⟨v, ⟨k, inside, own⟩, rfl⟩ | ⟨v, ⟨k, inside, own⟩, rfl⟩)
    · exact ⟨k, inside, v, own, .inl rfl⟩
    · exact ⟨k, inside, v, own, .inr rfl⟩

theorem assignBits_injOn :
    Set.InjOn (assignBits realPI) (allVectors realPI patternUpLimit uninit : Set (List Bool)) := by
  intro u left v right same
  rw [← map_assignBits distinct (allVectors_size left).1,
    ← map_assignBits distinct (allVectors_size right).1, same]

/-- Below the half no vector is the complement of another one. -/
theorem disjoint_complements :
    Disjoint ((allVectors realPI patternUpLimit uninit).image (assignBits realPI))
      ((allVectors realPI patternUpLimit uninit).image fun v => flip (assignBits realPI v)) := by
  rw [Finset.disjoint_left]
  intro x first second
  obtain ⟨u, left, rfl⟩ := Finset.mem_image.mp first
  obtain ⟨v, right, same⟩ := Finset.mem_image.mp second
  have total := weight_flip realPI (assignBits realPI v)
  rw [same, weight_assignBits distinct (allVectors_size left).1,
    weight_assignBits distinct (allVectors_size right).1] at total
  have leftBound := (allVectors_size left).2
  have rightBound := (allVectors_size right).2
  omega

/-- The number of candidates among the keys of the levels. -/
theorem card_enumerated :
    (keys (enumerated realPI patternUpLimit uninit) ∩ candidates realPI).card =
      share realPI * ∑ k ∈ Finset.range (realPI.length / 2),
        (levelVectors realPI.length patternUpLimit uninit k).card := by
  have direct : ((allVectors realPI patternUpLimit uninit).image (assignBits realPI)).card =
      (allVectors realPI patternUpLimit uninit).card :=
    Finset.card_image_of_injOn (assignBits_injOn distinct)
  have opposite : ((allVectors realPI patternUpLimit uninit).image fun v =>
      flip (assignBits realPI v)).card = (allVectors realPI patternUpLimit uninit).card := by
    apply Finset.card_image_of_injOn
    intro u left v right same
    apply assignBits_injOn distinct left right
    have back := congrArg flip same
    simpa only [flip_flip] using back
  rw [← card_allVectors, keys_enumerated distinct]
  by_cases all : realPI.length = inputNum
  · have every : candidates realPI = Finset.univ := by
      ext x
      simp [(length_eq_iff distinct).mp all]
    rw [every, Finset.inter_univ, Finset.card_union_of_disjoint (disjoint_complements distinct),
      direct, opposite, share]
    split
    · exact (Nat.two_mul _).symm
    · next empty =>
        have none : realPI.length / 2 = 0 := by
          have zero : ¬ 0 < realPI.length := fun positive => empty ⟨positive, all⟩
          omega
        rw [allVectors, none]
        rfl
  · have own : ((allVectors realPI patternUpLimit uninit).image (assignBits realPI) ∪
        (allVectors realPI patternUpLimit uninit).image fun v => flip (assignBits realPI v)) ∩
          candidates realPI = (allVectors realPI patternUpLimit uninit).image (assignBits realPI) := by
      ext x
      rw [Finset.mem_inter, Finset.mem_union]
      constructor
      · rintro ⟨first | second, inside⟩
        · exact first
        · obtain ⟨v, -, rfl⟩ := Finset.mem_image.mp second
          exact absurd ((flip_mem_candidates distinct (assignBits_mem v)).mp inside) all
      · intro first
        obtain ⟨v, -, rfl⟩ := Finset.mem_image.mp first
        exact ⟨.inl first, assignBits_mem v⟩
    rw [own, direct, share, if_neg fun both => all both.2, Nat.one_mul]

end Count

end LogicRegression.FixNetwork
