import LogicRegression.Construction.Minimize
import LogicRegression.Library.Core
import LogicRegression.Proof.SatOpt.Reorder

namespace LogicRegression.Minimize

open SatOpt

variable {n : ℕ} {clauses : List (List (Lit n))} {pat kept rest lits : List (Lit n)} {soff : Solver n}

/-- Fewer literals are satisfiable with more. -/
theorem Satisfiable.mono (satisfiable : Satisfiable clauses lits) (inside : pat ⊆ lits) :
    Satisfiable clauses pat := by
  obtain ⟨values, formula, assumed⟩ := satisfiable
  exact ⟨values, formula, fun l listed => assumed l (inside listed)⟩

/-- Unsatisfiability is the refutation that the minimisation works with. -/
def refutation (clauses : List (List (Lit n))) : Refutation (Lit n) where
  holds lits := ¬ Satisfiable clauses lits
  mono inside few many := few (many.mono inside)

/-- The answer is a minimal core of a pattern beside some assumptions. -/
structure MinimalCore (clauses : List (List (Lit n))) (current pat result : List (Lit n)) : Prop where
  inside : result ⊆ pat
  unsatisfiable : ¬ Satisfiable clauses (current ++ result)
  minimal : ∀ i < result.length, Satisfiable clauses (current ++ result.eraseIdx i)

/-- A core of the refutation is a minimal core. -/
theorem MinimalCore.of_isCore {current result : List (Lit n)} (inside : result ⊆ pat)
    (isCore : (refutation clauses).IsCore current result) : MinimalCore clauses current pat result :=
  ⟨inside, isCore.holds, fun _ place => not_not.mp (isCore.eraseIdx place)⟩

/-- One round tests the last literal in the context of all others. -/
theorem tryLast_append (l : Lit n) :
    tryLast ⟨soff, kept ++ (rest ++ [l])⟩ = ⟨soff.copyFrom (kept ++ rest),
      if Satisfiable soff.clauses (kept ++ rest) then l :: kept ++ rest else kept ++ rest⟩ := by
  have last : (kept ++ (rest ++ [l])).getLast? = some l := by simp
  have popped : (kept ++ (rest ++ [l])).dropLast = kept ++ rest := by simp [← List.append_assoc]
  simp only [tryLast, last, popped, Solver.solve, decide_eq_true_eq]
  rfl

/-- When the pattern is unsatisfiable each round keeps a core beside the literals not yet tested. -/
theorem rounds_core (soff : Solver n) (isCore : (refutation soff.clauses).IsCore rest kept) :
    ∃ added, (tryLast^[rest.length] ⟨soff, kept ++ rest⟩).result = added ++ kept ∧
      added.Sublist rest ∧ (refutation soff.clauses).IsCore [] (added ++ kept) := by
  induction rest using List.reverseRecOn generalizing soff kept with
  | nil => exact ⟨[], by simp, .refl _, isCore⟩
  | append_singleton rest l ih =>
      have swapped {first second : List (Lit n)} :
          Satisfiable soff.clauses (first ++ second) ↔ Satisfiable soff.clauses (second ++ first) :=
        ⟨fun holds => holds.mono (by simp), fun holds => holds.mono (by simp)⟩
      rw [List.length_append, List.length_singleton, Function.iterate_succ_apply, tryLast_append]
      by_cases needed : Satisfiable soff.clauses (kept ++ rest)
      · rw [if_pos needed]
        obtain ⟨added, result, sublist, final⟩ := ih (soff.copyFrom (kept ++ rest))
          (isCore.keep (not_not.mpr (swapped.mp needed)))
        rw [List.append_cons] at result final
        exact ⟨added ++ [l], result, sublist.append (.refl _), final⟩
      · rw [if_neg needed]
        obtain ⟨added, result, sublist, final⟩ := ih (soff.copyFrom (kept ++ rest))
          (isCore.drop fun holds => needed (swapped.mp holds))
        exact ⟨added, result, sublist.trans (List.sublist_append_left _ _), final⟩

/-- When the pattern is satisfiable each round keeps its literal. -/
theorem rounds_all (soff : Solver n) (satisfiable : Satisfiable soff.clauses (kept ++ rest)) :
    (tryLast^[rest.length] ⟨soff, kept ++ rest⟩).result = rest ++ kept := by
  induction rest using List.reverseRecOn generalizing soff kept with
  | nil => simp
  | append_singleton rest l ih =>
      rw [List.length_append, List.length_singleton, Function.iterate_succ_apply, tryLast_append,
        if_pos (satisfiable.mono (by simp))]
      have same : Satisfiable soff.clauses (l :: kept ++ rest) := satisfiable.mono (by simp)
      rw [List.append_assoc, List.singleton_append]
      exact ih (soff.copyFrom (kept ++ rest)) same

/-- The linear loop gives a core of an unsatisfiable pattern in the order of the pattern. -/
theorem linear_core (unsatisfiable : ¬ Satisfiable soff.clauses pat) :
    (linear soff pat).result.Sublist pat ∧
      (refutation soff.clauses).IsCore [] (linear soff pat).result := by
  have start : (refutation soff.clauses).IsCore pat [] := .nil unsatisfiable
  obtain ⟨added, result, sublist, isCore⟩ := rounds_core soff start
  rw [List.append_nil] at result isCore
  change (linear soff pat).result = added at result
  rw [result]
  exact ⟨sublist, isCore⟩

theorem linear_all (satisfiable : Satisfiable soff.clauses pat) : (linear soff pat).result = pat := by
  have all := rounds_all soff ((List.nil_append pat).symm ▸ satisfiable)
  rwa [List.append_nil] at all

section Reordered

variable {inputOrder : InputOrder} (sort : AscendingSort)

/-- The entries of all places are the list. -/
theorem filterMap_range {A : Type} (items : List A) :
    (List.range items.length).filterMap (items[·]?) = items := by
  induction items with
  | nil => rfl
  | cons item items ih =>
      rw [List.length_cons, List.range_succ_eq_map, List.filterMap_cons, List.filterMap_map]
      exact congrArg (item :: ·) ih

theorem negateSigns_fst : (negateSigns pat inputOrder).map Prod.fst = inputOrder.map Prod.fst := by
  rw [negateSigns, List.map_map]
  apply List.map_congr_left
  intro entry _
  rw [Function.comp_apply]
  split
  · rfl
  · rfl

/-- The reordered vector has the literals of the pattern. -/
theorem inputReorder_perm (order : IsOrder pat.length inputOrder) :
    (inputReorder sort pat inputOrder).Perm pat := by
  have places := (sort.perm (negateSigns pat inputOrder)).map Prod.fst
  rw [negateSigns_fst] at places
  have entries := (places.trans order).filterMap (pat[·]?)
  rw [filterMap_range, List.filterMap_map] at entries
  exact entries

/-- The linear loop over a reordered pattern and the bubble sort give a sorted core. -/
theorem sorted_core (order : IsOrder pat.length inputOrder)
    (unsatisfiable : ¬ Satisfiable soff.clauses pat) :
    (Bubble.sort Lit.var (linear soff (inputReorder sort pat inputOrder)).result).Subperm pat ∧
      (refutation soff.clauses).IsCore []
        (Bubble.sort Lit.var (linear soff (inputReorder sort pat inputOrder)).result) := by
  have perm := inputReorder_perm sort order
  obtain ⟨sublist, isCore⟩ := linear_core fun satisfiable =>
    unsatisfiable (satisfiable.mono perm.symm.subset)
  have sorted := (Bubble.sort_spec Lit.var (linear soff (inputReorder sort pat inputOrder)).result).1
  exact ⟨sorted.subperm.trans (sublist.subperm.trans perm.subperm), isCore.perm sorted.symm⟩

theorem sorted_all (order : IsOrder pat.length inputOrder)
    (satisfiable : Satisfiable soff.clauses pat) :
    (Bubble.sort Lit.var (linear soff (inputReorder sort pat inputOrder)).result).Perm pat := by
  have perm := inputReorder_perm sort order
  rw [linear_all (satisfiable.mono perm.subset)]
  exact (Bubble.sort_spec Lit.var _).1.trans perm

end Reordered

/-- The linear variants return a minimal core, or all literals of a satisfiable pattern. -/
theorem linear_minimal (sort : AscendingSort) (soff : Solver n) (pat result : List (Lit n)) :
    (∀ inputOrder, ∃ final : State n,
      (∀ fuel, minimize sort inputOrder 1 (fuel + 1) soff pat result = some final) ∧
      (¬ Satisfiable soff.clauses pat →
        MinimalCore soff.clauses [] pat final.result ∧ final.result.Sublist pat) ∧
      (Satisfiable soff.clauses pat → final.result.Perm pat)) ∧
    ∀ inputOrder, IsOrder pat.length inputOrder → ∃ final : State n,
      (∀ fuel, minimize sort inputOrder 4 (fuel + 1) soff pat result = some final) ∧
      (¬ Satisfiable soff.clauses pat →
        MinimalCore soff.clauses [] pat final.result ∧ final.result.Subperm pat) ∧
      (Satisfiable soff.clauses pat → final.result.Perm pat) ∧
      final.result.Pairwise fun x y => x.var ≤ y.var := by
  constructor
  · intro inputOrder
    use linear soff pat, fun fuel => rfl
    constructor
    · intro unsatisfiable
      obtain ⟨sublist, isCore⟩ := linear_core unsatisfiable
      exact ⟨.of_isCore sublist.subset isCore, sublist⟩
    · intro satisfiable
      rw [linear_all satisfiable]
  · intro inputOrder order
    use ⟨(linear soff (inputReorder sort pat inputOrder)).soff,
      Bubble.sort Lit.var (linear soff (inputReorder sort pat inputOrder)).result⟩, fun fuel => rfl
    constructor
    · intro unsatisfiable
      obtain ⟨subperm, isCore⟩ := sorted_core sort order unsatisfiable
      exact ⟨.of_isCore subperm.subset isCore, subperm⟩
    · exact ⟨sorted_all sort order, (Bubble.sort_spec Lit.var _).2⟩

/-- This sort keeps ties in their order. -/
def ascendingSort : AscendingSort where
  run := List.insertionSort fun i j => i.2 ≤ j.2
  perm := List.perm_insertionSort _
  sorted items := by
    have sorted := List.pairwise_insertionSort (fun i j : ℕ × ℤ => i.2 ≤ j.2) items
    apply sorted.imp
    intro i j le
    simpa [orderFunction] using le

/-- The formula says that not both variables are true. -/
def sampleFormula : List (List (Lit 2)) := [[⟨Fin.last 1, true⟩, ⟨(Fin.last 1).rev, true⟩]]

def sampleLits : List (Lit 2) := [⟨Fin.last 1, false⟩, ⟨(Fin.last 1).rev, false⟩]

theorem sampleLits_unsatisfiable : ¬ Satisfiable sampleFormula sampleLits := by decide

theorem linear_minimal_sample : ∃ final : State 2,
    minimize ascendingSort [(1, 4), (0, 2)] 4 1 ⟨sampleFormula, []⟩ sampleLits [] = some final ∧
      MinimalCore sampleFormula [] sampleLits final.result := by
  have order : IsOrder sampleLits.length [(1, 4), (0, 2)] := by
    unfold IsOrder
    decide
  obtain ⟨final, returned, core, -⟩ :=
    (linear_minimal ascendingSort ⟨sampleFormula, []⟩ sampleLits []).2 _ order
  exact ⟨final, returned 0, (core sampleLits_unsatisfiable).1⟩

end LogicRegression.Minimize
