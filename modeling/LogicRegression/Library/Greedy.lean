import Mathlib.Tactic
import Mathlib.Data.Finset.Basic

namespace LogicRegression.Greedy

variable {I : Type} [DecidableEq I] (bad : Finset I → Prop) [DecidablePred bad]

/-- One attempt keeps the new element unless the larger set is bad. -/
def attempt (chosen : Finset I) (item : I) : Finset I :=
  if bad (insert item chosen) then chosen else insert item chosen

/-- The greedy pass attempts each element once. -/
def grow (chosen : Finset I) (items : List I) : Finset I := items.foldl (attempt bad) chosen

theorem attempt_good {chosen : Finset I} (good : ¬ bad chosen) (item : I) :
    ¬ bad (attempt bad chosen item) := by
  unfold attempt
  split <;> assumption

theorem subset_attempt (chosen : Finset I) (item : I) : chosen ⊆ attempt bad chosen item := by
  unfold attempt
  split
  · exact Finset.Subset.refl _
  · exact Finset.subset_insert _ _

theorem attempt_subset (chosen : Finset I) (item : I) :
    attempt bad chosen item ⊆ insert item chosen := by
  unfold attempt
  split
  · exact Finset.subset_insert _ _
  · exact Finset.Subset.refl _

@[simp] theorem grow_nil (chosen : Finset I) : grow bad chosen [] = chosen := rfl

@[simp] theorem grow_cons (chosen : Finset I) (item : I) (items : List I) :
    grow bad chosen (item :: items) = grow bad (attempt bad chosen item) items := rfl

/-- The greedy pass never reaches a bad set. -/
theorem grow_good {chosen : Finset I} (good : ¬ bad chosen) (items : List I) :
    ¬ bad (grow bad chosen items) := by
  induction items generalizing chosen with
  | nil => exact good
  | cons item items ih => exact ih (attempt_good bad good item)

theorem subset_grow (chosen : Finset I) (items : List I) : chosen ⊆ grow bad chosen items := by
  induction items generalizing chosen with
  | nil => exact Finset.Subset.refl _
  | cons item items ih => exact (subset_attempt bad chosen item).trans (ih _)

/-- A refused element stays refused, since the final set is only larger. -/
theorem grow_maximal (mono : ∀ small large, small ⊆ large → bad small → bad large)
    {chosen : Finset I} {items : List I} {item : I} (listed : item ∈ items)
    (refused : item ∉ grow bad chosen items) : bad (insert item (grow bad chosen items)) := by
  induction items generalizing chosen with
  | nil => simp at listed
  | cons head items ih =>
      rw [grow_cons] at refused ⊢
      rcases List.mem_cons.mp listed with rfl | later
      · have kept := subset_grow bad (attempt bad chosen item) items
        by_cases conflict : bad (insert item chosen)
        · exact mono _ _ (Finset.insert_subset_insert _
            ((subset_attempt bad chosen item).trans kept)) conflict
        · have taken : item ∈ attempt bad chosen item := by simp [attempt, conflict]
          exact absurd (kept taken) refused
      · exact ih later refused

end LogicRegression.Greedy
