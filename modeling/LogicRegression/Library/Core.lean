import Mathlib.Tactic

namespace LogicRegression

/-- A property of lists of assumptions that further assumptions keep. -/
structure Refutation (A : Type) where
  holds : List A → Prop
  mono : ∀ {few many : List A}, few ⊆ many → holds few → holds many

namespace Refutation

variable {A : Type} {refuted : Refutation A} {context core first second : List A}

/-- A core is refuted together with its context, and no element of it can be dropped. -/
structure IsCore (refuted : Refutation A) (context core : List A) : Prop where
  holds : refuted.holds (context ++ core)
  needed : ∀ x rest, core.Perm (x :: rest) → ¬ refuted.holds (context ++ rest)

/-- Only the members of the assumptions beside a context matter. -/
theorem holds_of_subset (inside : first ⊆ context ++ second)
    (holds : refuted.holds (context ++ first)) : refuted.holds (context ++ second) :=
  refuted.mono (List.append_subset.mpr ⟨List.subset_append_left _ _, inside⟩) holds

/-- The order of the assumptions does not matter. -/
theorem holds_of_perm (perm : first.Perm second) (holds : refuted.holds (context ++ first)) :
    refuted.holds (context ++ second) :=
  holds_of_subset (fun _ member => List.mem_append_right _ (perm.subset member)) holds

/-- A member can be moved to the front. -/
theorem exists_rest {x : A} (listed : x ∈ core) : ∃ rest, core.Perm (x :: rest) :=
  (List.singleton_sublist.mpr listed).exists_perm_append

/-- A refuted context needs nothing. -/
theorem IsCore.nil (holds : refuted.holds context) : refuted.IsCore context [] :=
  ⟨by rwa [List.append_nil], fun _ _ perm => absurd perm.symm List.not_perm_cons_nil⟩

/-- One assumption that refutes a context is needed. -/
theorem IsCore.singleton {x : A} (unrefuted : ¬ refuted.holds context)
    (holds : refuted.holds (context ++ [x])) : refuted.IsCore context [x] := by
  constructor
  · exact holds
  · intro y rest perm
    have empty : rest = [] := List.eq_nil_of_length_eq_zero (by simpa using perm.length_eq.symm)
    rwa [empty, List.append_nil]

theorem IsCore.perm (isCore : refuted.IsCore context first) (perm : first.Perm second) :
    refuted.IsCore context second := by
  constructor
  · exact holds_of_perm perm isCore.holds
  · exact fun x rest other => isCore.needed x rest (perm.trans other)

/-- A core has no element twice. -/
theorem IsCore.nodup (isCore : refuted.IsCore context core) : core.Nodup := by
  rw [List.nodup_iff_sublist]
  intro x twice
  obtain ⟨rest, perm⟩ := twice.exists_perm_append
  apply isCore.needed x (x :: rest) perm
  apply holds_of_subset _ isCore.holds
  intro y listed
  have inside := perm.subset listed
  simp only [List.cons_append, List.nil_append, List.mem_cons, List.mem_append] at inside ⊢
  tauto

/-- Without its element at some place a core is not refuted. -/
theorem IsCore.eraseIdx (isCore : refuted.IsCore context core) {i : ℕ} (inside : i < core.length) :
    ¬ refuted.holds (context ++ core.eraseIdx i) :=
  isCore.needed core[i] _ (List.getElem_cons_eraseIdx_perm inside).symm

/-- A part of a core that misses an element is not refuted. -/
theorem IsCore.missing (isCore : refuted.IsCore context core) {part : List A}
    (inside : part ⊆ core) {x : A} (listed : x ∈ core) (absent : x ∉ part) :
    ¬ refuted.holds (context ++ part) := by
  obtain ⟨rest, perm⟩ := exists_rest listed
  intro holds
  apply isCore.needed x rest perm
  apply holds_of_subset _ holds
  intro y member
  apply List.mem_append_right
  exact (List.mem_cons.mp (perm.subset (inside member))).resolve_left fun same =>
    absent (same ▸ member)

/-- An assumption that the rest does not replace becomes a part of the core. -/
theorem IsCore.keep {x : A} (isCore : refuted.IsCore (context ++ [x]) core)
    (unrefuted : ¬ refuted.holds (context ++ core)) : refuted.IsCore context (x :: core) := by
  constructor
  · simpa using isCore.holds
  · intro y rest perm holds
    have listed : y ∈ x :: core := perm.symm.subset List.mem_cons_self
    rcases List.mem_cons.mp listed with rfl | inside
    · exact unrefuted (holds_of_perm perm.cons_inv.symm holds)
    · obtain ⟨others, split⟩ := exists_rest inside
      have same : (x :: others).Perm rest :=
        (((split.cons x).trans (.swap y x others)).symm.trans perm).cons_inv
      apply isCore.needed y others split
      rw [List.append_assoc]
      exact holds_of_perm same.symm holds

/-- An assumption without which the rest is refuted is dropped. -/
theorem IsCore.drop {x : A} (isCore : refuted.IsCore (context ++ [x]) core)
    (holds : refuted.holds (context ++ core)) : refuted.IsCore context core := by
  constructor
  · exact holds
  · intro y rest perm refutes
    apply isCore.needed y rest perm
    rw [List.append_assoc]
    apply holds_of_subset _ refutes
    simp

/-- A core beside all candidates of a second core can be put before that core. -/
theorem IsCore.append {candidates : List A} (isFirst : refuted.IsCore (context ++ candidates) first)
    (inside : second ⊆ candidates) (isSecond : refuted.IsCore (context ++ first) second) :
    refuted.IsCore context (first ++ second) := by
  constructor
  · rw [← List.append_assoc]
    exact isSecond.holds
  · intro x rest perm holds
    have listed : x ∈ first ++ second := perm.symm.subset List.mem_cons_self
    rcases List.mem_append.mp listed with left | right
    · obtain ⟨others, split⟩ := exists_rest left
      have same : (others ++ second).Perm rest :=
        ((split.append_right second).symm.trans perm).cons_inv
      apply isFirst.needed x others split
      rw [List.append_assoc]
      apply holds_of_subset _ holds
      intro y member
      have place := same.symm.subset member
      simp only [List.mem_append] at place ⊢
      exact place.elim (fun old => .inr (.inr old)) fun new => .inr (.inl (inside new))
    · obtain ⟨others, split⟩ := exists_rest right
      have moved : (first ++ second).Perm (x :: (first ++ others)) :=
        (split.append_left first).trans List.perm_middle
      have same : (first ++ others).Perm rest := (moved.symm.trans perm).cons_inv
      apply isSecond.needed x others split
      rw [List.append_assoc]
      exact holds_of_perm same.symm holds

end Refutation

end LogicRegression
