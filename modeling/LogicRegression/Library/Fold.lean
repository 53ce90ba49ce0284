import Mathlib.Tactic
import Mathlib.Data.List.Infix

namespace LogicRegression.Fold

variable {A S : Type}

/-- A relation between the processed prefix and the state holds after the whole loop. -/
theorem foldl_prefix {step : S → A → S} {holds : List A → S → Prop} {items : List A} {init : S}
    (start : holds [] init)
    (each : ∀ done item state, done ++ [item] <+: items → holds done state →
      holds (done ++ [item]) (step state item)) :
    holds items (items.foldl step init) := by
  induction items using List.reverseRecOn with
  | nil => exact start
  | append_singleton items item ih =>
      rw [List.foldl_append]
      apply each items item _ (List.prefix_refl _)
      exact ih fun done next state before => each done next state
        (before.trans (List.prefix_append items [item]))

/-- Two loops agree when their steps agree on every state that the first loop reaches. -/
theorem foldl_congr {first second : S → A → S} {holds : S → Prop} {items : List A} {init : S}
    (start : holds init) (kept : ∀ state, ∀ item ∈ items, holds state → holds (first state item))
    (same : ∀ state, ∀ item ∈ items, holds state → first state item = second state item) :
    items.foldl first init = items.foldl second init := by
  induction items generalizing init with
  | nil => rfl
  | cons item items ih =>
      rw [List.foldl_cons, List.foldl_cons, ← same init item (by simp) start]
      apply ih (kept init item (by simp) start)
      · exact fun state next inside => kept state next (by simp [inside])
      · exact fun state next inside => same state next (by simp [inside])

section Optional

variable {step other : S → A → Option S} {items : List A} {init final : S}

/-- A loop whose steps all return keeps a relation between the processed prefix and the state. -/
theorem foldlM_prefix {holds : List A → S → Prop} (start : holds [] init)
    (each : ∀ done item state, done ++ [item] <+: items → holds done state →
      ∃ next, step state item = some next ∧ holds (done ++ [item]) next) :
    ∃ final, items.foldlM step init = some final ∧ holds items final := by
  induction items using List.reverseRecOn with
  | nil => exact ⟨init, rfl, start⟩
  | append_singleton items item ih =>
      obtain ⟨state, returned, before⟩ := ih fun done next state prior => each done next state
        (prior.trans (List.prefix_append items [item]))
      obtain ⟨final, last, after⟩ := each items item state (List.prefix_refl _) before
      use final
      rw [List.foldlM_append, returned]
      exact ⟨by simpa using last, after⟩

/-- A loop whose steps all return does so. -/
theorem foldlM_returns (each : ∀ state, ∀ item ∈ items, ∃ next, step state item = some next) :
    ∃ final, items.foldlM step init = some final := by
  induction items generalizing init with
  | nil => exact ⟨init, rfl⟩
  | cons item items ih =>
      obtain ⟨next, first⟩ := each init item List.mem_cons_self
      rw [List.foldlM_cons, first]
      exact ih fun state later inside => each state later (List.mem_cons_of_mem _ inside)

/-- A loop that returns also returns with steps that return more often. -/
theorem foldlM_mono (more : ∀ state item next, step state item = some next →
      other state item = some next)
    (returned : items.foldlM step init = some final) : items.foldlM other init = some final := by
  induction items generalizing init with
  | nil => exact returned
  | cons item items ih =>
      rw [List.foldlM_cons] at returned ⊢
      obtain ⟨next, first, later⟩ := Option.bind_eq_some_iff.mp returned
      exact Option.bind_eq_some_iff.mpr ⟨next, more _ _ _ first, ih later⟩

end Optional

end LogicRegression.Fold
