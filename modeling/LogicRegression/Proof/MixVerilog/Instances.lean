import LogicRegression.Construction.MixVerilog

namespace LogicRegression.MixVerilog

open Text

section Instances

/-- The label, the flag and the wire suffix of the two kinds of faults. -/
def faultLabel (b : Bool) : Text := if b then lit "fault1" else lit "fault0"

def flagOf (status : Bool × Bool) (b : Bool) : Bool := if b then status.2 else status.1

def wrongSuffix (b : Bool) : Text := if b then lit "_wrong0" else lit "_wrong1"

def submoduleName (i : ℕ) (b : Bool) : Text := lit "submodule" ++ decimal i ++ faultLabel b

theorem submoduleName_inj {i j : ℕ} {b c : Bool} (same : submoduleName i b = submoduleName j c) :
    i = j ∧ b = c := by
  rw [submoduleName, submoduleName, List.append_assoc, List.append_assoc] at same
  have label (b : Bool) : ∃ rest, faultLabel b = 'f' :: rest := by
    cases b
    · exact ⟨lit "ault0", rfl⟩
    · exact ⟨lit "ault1", rfl⟩
  have tails := List.append_cancel_left same
  obtain ⟨first, firstLabel⟩ := label b
  obtain ⟨second, secondLabel⟩ := label c
  rw [firstLabel, secondLabel] at tails
  obtain ⟨index, labels⟩ := decimal_append_inj (by decide) (by decide) tails
  rw [← firstLabel, ← secondLabel] at labels
  use index
  cases b <;> cases c <;> first | rfl | exact absurd labels (by decide)

variable (ioNames : List Text) (inputNum : ℕ) (status : ℕ → Bool × Bool)

/-- The instance that belongs to a fault. -/
def submodule (i : ℕ) (b : Bool) : Instance Text :=
  ⟨submoduleName i b, ioNames.take inputNum, [outputName ioNames inputNum i ++ wrongSuffix b]⟩

/-- The instances of one output are those of its set flags. -/
theorem submodules_eq (i : ℕ) (flags : Bool × Bool) :
    submodules ioNames inputNum i flags =
      ([false, true].filter (flagOf flags)).map (submodule ioNames inputNum i) := by
  obtain ⟨first, second⟩ := flags
  cases first <;> cases second <;> rfl

end Instances

end LogicRegression.MixVerilog
