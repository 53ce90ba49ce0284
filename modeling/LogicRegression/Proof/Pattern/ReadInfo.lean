import LogicRegression.Proof.Synthesis.TruthTable

namespace LogicRegression.Pattern

open Text Synthesis

variable (n : ℕ) (atof : Text → ℚ) (outputIndex upLimit : ℕ) (log logEx : Option Text)

/-- The inputs that the set keeps. -/
def keptPI : Finset (Fin n) := ((infoSet atof outputIndex log).take upLimit).toFinset

/-- The state vector marks exactly the kept inputs as real. -/
theorem readInfo_piState :
    (readInfo atof outputIndex upLimit log logEx : Info n).piState =
      List.ofFn (piStateOf (keptPI n atof outputIndex upLimit log)) := by
  rw [List.ofFn_eq_map]
  apply List.map_congr_left
  intro j _
  simp [piStateOf, keptPI]

/-- No more inputs than the limit are kept. -/
theorem keptPI_card :
    (keptPI n atof outputIndex upLimit log).card ≤ upLimit :=
  (List.toFinset_card_le _).trans (List.length_take_le _ _)

/-- The generator has a text for every state that `read_info` leaves behind. -/
theorem lastGeneration_readInfo (ioNames : List Text) :
    ∃ file, lastGeneration ioNames n
      (readInfo atof outputIndex upLimit log logEx : Info n).piState upLimit = some file := by
  by_cases small : upLimit < 30
  · have fits : (readInfo atof outputIndex upLimit log logEx : Info n).piState.count false ≤
        upLimit := by
      rw [readInfo_piState, count_piStateOf]
      exact keptPI_card n atof outputIndex upLimit log
    exact ⟨_, lastGeneration_eq small fits⟩
  · exact ⟨[], if_neg small⟩

/-- There are at most as many dummy inputs as inputs. -/
theorem dummyPI_length_le :
    (dummyPI (readInfo atof outputIndex upLimit log logEx : Info n).piState).length ≤ n := by
  rw [readInfo_piState, dummyPI]
  refine (List.length_filter_le _ _).trans ?_
  rw [List.length_range, List.length_ofFn]

/-- Some entry of the state vector is real exactly when an input is kept. -/
theorem false_mem_piState :
    false ∈ (readInfo atof outputIndex upLimit log logEx : Info n).piState ↔
      (keptPI n atof outputIndex upLimit log).Nonempty := by
  rw [readInfo_piState, List.mem_ofFn]
  simp [piStateOf, Finset.Nonempty]

end LogicRegression.Pattern
