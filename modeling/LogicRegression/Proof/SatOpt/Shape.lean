import LogicRegression.Proof.SatOpt.Minimize

namespace LogicRegression.SatOpt

open Text Binary

/-- A cube of `n` positions consists of bits and dashes. -/
structure IsCube (n : ℕ) (cube : Text) : Prop where
  size : cube.length = n
  values : ∀ c ∈ cube, c = '-' ∨ c = '0' ∨ c = '1'

variable {n : ℕ} {cube : Text}

/-- The characters of a cube are neither spaces nor dots. -/
theorem IsCube.solid (isCube : IsCube n cube) {c : Char} (inside : c ∈ cube) :
    isSpace c = false ∧ c ≠ '.' := by
  rcases isCube.values c inside with rfl | rfl | rfl <;> decide

theorem IsCube.set (isCube : IsCube n cube) (i : ℕ) {c : Char}
    (value : c = '-' ∨ c = '0' ∨ c = '1') : IsCube n (cube.set i c) := by
  constructor
  · rw [List.length_set, isCube.size]
  · intro d inside
    cases List.mem_or_eq_of_mem_set inside with
    | inl listed => exact isCube.values d listed
    | inr same => exact same ▸ value

theorem IsCube.of_bits (isBits : IsBits cube) (size : cube.length = n) : IsCube n cube :=
  ⟨size, fun c inside => .inr (isBits c inside)⟩

/-- The rounds of an expansion write dashes and characters of the row. -/
theorem expand_isCube (skip : Char → ℕ → Bool) (isOff : Text → Bool) {inputPat : Text}
    (isCube : IsCube n inputPat) : IsCube n (expand skip isOff inputPat) := by
  apply List.foldlRecOn (motive := IsCube n) _ _ isCube
  intro dcString before i listed
  have inside : i < inputPat.length := List.mem_range.mp listed
  have freed := before.set i (.inl rfl)
  have present : inputPat.getD i '\x00' ∈ inputPat := by
    rw [List.getD_eq_getElem _ _ inside]
    exact List.getElem_mem inside
  change IsCube n (expandStep skip isOff inputPat dcString i)
  rw [expandStep]
  split
  · exact freed.set i (isCube.values _ present)
  · exact freed

/-- `Order_back` writes characters of the string. -/
theorem orderBack_isCube (inputOrder : InputOrder) (isCube : IsCube n cube) :
    IsCube n (orderBack inputOrder cube) := by
  apply List.foldlRecOn (motive := IsCube n) _ _ isCube
  intro reStr before write listed
  exact before.set _ (isCube.values _ (List.of_mem_zip listed).2)

section Run

variable {patterns : Table} {inputOrder : InputOrder}

/-- One expansion gives a cube over the inputs and the output bit, whatever its scans say. -/
theorem growPattern_isCube (skip : Char → ℕ → Bool) (sort : StdSort) (positive : n ≠ 0)
    (table : IsTable n patterns) (order : IsOrder n inputOrder) {seed : Text} (on : OnSet patterns seed) :
    ∃ cube, (growPattern skip sort n patterns inputOrder seed).1 = cube ++ ['1'] ∧
      IsCube n cube := by
  have seedSize := table.size _ on
  have newOrder := reorder_order sort order seedSize
  have string := reorder_fst sort (order.length_eq.trans seedSize.symm)
  have pat : IsCube n (reorder sort inputOrder seed).1 := by
    rw [string]
    apply IsCube.of_bits
    · intro c inside
      obtain ⟨entry, listed, rfl⟩ := List.mem_map.mp inside
      have inSeed : entry.1 < seed.length := seedSize ▸ newOrder.lt listed
      apply table.bits _ on
      simp [inSeed]
    · rw [permuted_length, newOrder.length_eq]
  rw [growPattern_eq sort positive]
  exact ⟨_, rfl, orderBack_isCube _ (expand_isCube _ _ pat)⟩

/-- The results so far are cubes with their output bit, and the order is a rearrangement. -/
structure HasCubes (n : ℕ) (inputOrder : InputOrder) (progress : Progress) : Prop where
  order : progress.inputOrder.Perm inputOrder
  results : ∃ cubes : List Text, progress.resultPatterns = cubes.map (· ++ ['1']) ∧
    ∀ cube ∈ cubes, IsCube n cube

/-- The minimiser returns cubes for every number of inputs. -/
theorem resultPatterns_cubes (sorts : ℕ → StdSort) (positive : n ≠ 0) (table : IsTable n patterns)
    (order : IsOrder n inputOrder) :
    ∃ cubes : List Text, resultPatterns sorts n patterns inputOrder = cubes.map (· ++ ['1']) ∧
      ∀ cube ∈ cubes, IsCube n cube := by
  have start : HasCubes n inputOrder ⟨inputOrder, []⟩ :=
    ⟨List.Perm.refl _, [], rfl, by simp⟩
  have final : HasCubes n inputOrder (minimize halfSpace sorts n patterns inputOrder) := by
    apply List.foldlRecOn (motive := HasCubes n inputOrder) _ _ start
    intro progress before pattern listed
    obtain ⟨first, value⟩ := pattern
    rw [minimizeStep]
    split
    · next one =>
        split
        · exact before
        · obtain rfl : value = ['1'] := one
          have current := order.perm before.order
          have perm := growPattern_perm (sorts progress.resultPatterns.length) positive table
            current listed halfSpace
          obtain ⟨cube, grown, isCube⟩ := growPattern_isCube halfSpace
            (sorts progress.resultPatterns.length) positive table current listed
          obtain ⟨cubes, results, all⟩ := before.results
          have appended : progress.resultPatterns ++ [(growPattern halfSpace
              (sorts progress.resultPatterns.length) n patterns progress.inputOrder first).1] =
                (cubes ++ [cube]).map (· ++ ['1']) := by
            rw [grown, results, List.map_append, List.map_singleton]
          refine ⟨perm.trans before.order, cubes ++ [cube], appended, ?_⟩
          intro other inside
          cases List.mem_append.mp inside with
          | inl earlier => exact all other earlier
          | inr last => exact List.mem_singleton.mp last ▸ isCube
    · exact before
  exact final.results

end Run

end LogicRegression.SatOpt
