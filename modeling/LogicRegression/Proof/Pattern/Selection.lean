import LogicRegression.Proof.Pattern.ReadInfo

namespace LogicRegression.Pattern

open Text

/-- A log has a row for the output, with commas between its fields and one field for each input
after the first. -/
def HasRow {n : ℕ} (outputIndex : ℕ) (fields : Fin n → Text) (log : Text) : Prop :=
  ∃ row : Text, (log.splitOn '\n')[outputIndex + 1]? = some row ∧
    ∀ j : Fin n, (row.splitOn ',')[(j : ℕ) + 1]? = some (fields j)

section Row

variable {n outputIndex : ℕ} {fields : Fin n → Text} {log : Text} (atof : Text → ℚ)

/-- The offsets of `read_info` meet the row of the output and the field of each input. -/
theorem ratios_infoRow (hasRow : HasRow outputIndex fields log) (j : Fin n) :
    ratios atof (infoRow outputIndex log) j = atof (fields j) := by
  obtain ⟨row, present, columns⟩ := hasRow
  have found : infoRow outputIndex log = row := by
    have last := getlines_splitOn [] (Nat.lt_succ_self (outputIndex + 1)) present
    rw [infoRow, List.getLastD_eq_getLast?, List.getLast?_eq_getElem?, getlines_length]
    exact congrArg (Option.getD · []) last
  have field := getlines_splitOn row (Nat.succ_lt_succ j.isLt) (columns j)
  rw [ratios, found, List.getD_eq_getElem?_getD, field]
  rfl

theorem mem_positiveInputs (hasRow : HasRow outputIndex fields log) {j : Fin n} :
    j ∈ positiveInputs atof outputIndex (some log) ↔ 0 < atof (fields j) := by
  simp [positiveInputs, ratios_infoRow atof hasRow]

end Row

section Order

variable {n : ℕ} {ratio : Fin n → ℚ}

/-- A larger ratio comes first, and the larger index of two equal ratios. -/
theorem precedes_iff {i j : Fin n} :
    precedes ratio i j = true ↔ ratio j < ratio i ∨ ratio j = ratio i ∧ j < i := by
  unfold precedes
  by_cases same : ratio i = ratio j
  · simp [same]
  · simp [same, Ne.symm same]

/-- Equal ratios are ordered by the index, so the set merges no two inputs. -/
theorem precedes_strictOrder (ratio : Fin n → ℚ) : SortedSet.StrictOrder (precedes ratio) where
  irrefl i := by simp [precedes]
  trans i j k first second := by
    rw [precedes_iff] at *
    rcases first with larger | ⟨same, above⟩
    · rcases second with next | ⟨equal, -⟩
      · exact .inl (next.trans larger)
      · exact .inl (equal ▸ larger)
    · rcases second with next | ⟨equal, below⟩
      · exact .inl (same ▸ next)
      · exact .inr ⟨equal.trans same, below.trans above⟩
  total i j notBefore notAfter := by
    rw [← Bool.not_eq_true, precedes_iff, not_or, not_lt, not_and, not_lt] at notBefore notAfter
    have same : ratio i = ratio j := le_antisymm notBefore.1 notAfter.1
    exact le_antisymm (notBefore.2 same.symm) (notAfter.2 same)

end Order

section Selection

variable {n outputIndex : ℕ} {fields fieldsEx : Fin n → Text} {log logEx : Text}
  (atof : Text → ℚ)

/-- The set holds the inputs with a positive ratio in its strict order. -/
theorem mem_infoSet (hasRow : HasRow outputIndex fields log) {j : Fin n} :
    j ∈ infoSet atof outputIndex (some log) ↔ 0 < atof (fields j) :=
  (SortedSet.mem_ofList (precedes_strictOrder _)).trans (mem_positiveInputs atof hasRow)

theorem infoSet_nodup (log : Option Text) :
    (infoSet atof outputIndex log : List (Fin n)).Nodup :=
  SortedSet.ofList_nodup (precedes_strictOrder _) _

/-- The set has as many inputs as there are positive ratios. -/
theorem infoSet_length (hasRow : HasRow outputIndex fields log) :
    (infoSet atof outputIndex (some log) : List (Fin n)).length =
      (Finset.univ.filter fun j => 0 < atof (fields j)).card := by
  rw [← List.toFinset_card_of_nodup (infoSet_nodup atof (some log))]
  congr 1
  ext j
  simp [mem_infoSet atof hasRow]

/-- The inputs whose entry of the state vector is not dummy. -/
def Info.real (info : Info n) : Finset (Fin n) :=
  Finset.univ.filter fun j => info.piState[(j : ℕ)]? = some false

theorem mem_real (upLimit : ℕ) (log logEx : Option Text) {j : Fin n} :
    j ∈ (readInfo atof outputIndex upLimit log logEx).real ↔
      j ∈ (infoSet atof outputIndex log).take upLimit := by
  simp [Info.real, readInfo]

/-- Exactly the best inputs become real, and `real_PI` lists the second row in order. -/
theorem readInfo_keeps_best (upLimit : ℕ) (hasRow : HasRow outputIndex fields log)
    (hasRowEx : HasRow outputIndex fieldsEx logEx) :
    let info := readInfo atof outputIndex upLimit (some log) (some logEx)
    info.piState.length = n ∧
    info.real.card = min upLimit (Finset.univ.filter fun j => 0 < atof (fields j)).card ∧
    (∀ j ∈ info.real, 0 < atof (fields j)) ∧
    (∀ i ∈ info.real, ∀ j ∉ info.real, 0 < atof (fields j) →
      atof (fields j) < atof (fields i) ∨ atof (fields j) = atof (fields i) ∧ j < i) ∧
    info.realPI.Pairwise (· < ·) ∧
    ∀ j, j ∈ info.realPI ↔ 0 < atof (fieldsEx j) := by
  intro info
  refine ⟨?_, ?_, fun j real => ?_, fun i real j dummy positive => ?_, ?_, fun j => ?_⟩
  · simp [info, readInfo]
  · have same : info.real = ((infoSet atof outputIndex (some log)).take upLimit).toFinset := by
      ext j
      rw [List.mem_toFinset]
      exact mem_real atof upLimit _ _
    rw [same, List.toFinset_card_of_nodup ((infoSet_nodup atof _).sublist (List.take_sublist _ _)),
      List.length_take, infoSet_length atof hasRow]
  · have kept := (mem_real atof upLimit _ _).mp real
    exact (mem_infoSet atof hasRow).mp (List.mem_of_mem_take kept)
  · have kept := (mem_real atof upLimit _ _).mp real
    have cut := fun listed => dummy ((mem_real atof upLimit _ _).mpr listed)
    have before := SortedSet.before_of_mem_take (precedes_strictOrder _) kept
      ((mem_positiveInputs atof hasRow).mpr positive) cut
    have ordered := precedes_iff.mp before
    simpa only [Option.getD_some, ratios_infoRow atof hasRow] using ordered
  · have perm := List.perm_insertionSort (· ≤ ·) (infoSet atof outputIndex (some logEx) : List (Fin n))
    have sorted := List.pairwise_insertionSort (· ≤ ·)
      (infoSet atof outputIndex (some logEx) : List (Fin n))
    exact (List.Pairwise.and sorted (perm.nodup_iff.mpr (infoSet_nodup atof _))).imp
      fun both => lt_of_le_of_ne both.1 both.2
  · exact (List.perm_insertionSort _ _).mem_iff.trans (mem_infoSet atof hasRowEx)

/-- A log with two outputs and three inputs; its ratios are decimal numerals. -/
def sampleLog : Text := lit "head\n0,5,,1,2\n1,1,2,2,3\n"

def sampleFields (j : Fin 3) : Text := [lit "1", lit "2", lit "2"].get j

/-- On a decimal numeral `atof` gives its value. -/
def sampleAtof (field : Text) : ℚ := Nat.ofDigitChars 10 field 0

theorem sampleLog_hasRow : HasRow 1 sampleFields sampleLog :=
  ⟨lit "1,1,2,2,3", by decide, by decide⟩

theorem readInfo_keeps_best_sample :
    (readInfo sampleAtof 1 2 (some sampleLog) (some sampleLog) : Info 3).real.card =
      min 2 (Finset.univ.filter fun j : Fin 3 => 0 < sampleAtof (sampleFields j)).card :=
  (readInfo_keeps_best sampleAtof 2 sampleLog_hasRow sampleLog_hasRow).2.1

example : (readInfo sampleAtof 1 2 (some sampleLog) (some sampleLog) : Info 3).piState =
    [true, false, false] := by decide

end Selection

end LogicRegression.Pattern
