import LogicRegression.Proof.ClassifyOutput.Sampling
import LogicRegression.Proof.FixNetwork.Comparison

namespace LogicRegression.ClassifyOutput

open Text FixNetwork

variable {n m : ℕ} {io : IoNames n m}

/-- The file of the sampler has each row with its last input first. -/
def mirrored (x : Fin n → Bool) : Fin n → Bool := fun j => x j.rev

theorem bitWords_reverse (x : Fin n → Bool) : (bitWords x).reverse = bitWords (mirrored x) := by
  rw [bitWords, bitWords, ← List.map_reverse]
  congr 1
  apply List.ext_get (by simp)
  intro k _ _
  simp only [List.get_eq_getElem, List.getElem_reverse, List.getElem_ofFn, List.length_ofFn]
  exact congrArg x (Fin.ext (by simp [Fin.val_rev]; omega))

/-- The file of the sampler is a pattern file of the repair for the mirrored rows. -/
theorem constInPat_eq (ioNames : List Text) {rows : List (Fin n → Bool)}
    (size : rows.length = patternNums) :
    constInPat ioNames rows = fixInPat ioNames (rows.map mirrored) := by
  rw [constInPat, fixInPat, List.length_map, size, List.flatMap_map]
  simp only [bitWords_reverse]

/-- The file of the sampled rows is a pattern file. -/
theorem words_constInPat (io : IoNames n m) {rows : List (Fin n → Bool)}
    (size : rows.length = patternNums) :
    words (constInPat io.names rows) = patternWords io.names (rows.map mirrored) := by
  rw [constInPat_eq io.names size]
  exact words_fixInPat io _

theorem mirrored_ne_nil {rows : List (Fin n → Bool)} (size : rows.length = patternNums) :
    rows.map mirrored ≠ [] := by
  apply List.ne_nil_of_length_pos
  rw [List.length_map, size]
  decide

/-- An output is classified by the number of sampled rows at which the simulator gives one. -/
theorem classifyPO_run (iogen : Iogen io) {rows : List (Fin n → Bool)}
    (size : rows.length = patternNums) (j : Fin m) :
    classifyPO n (iogen.run (constInPat io.names rows)) j =
      outputType ((rows.map mirrored).countP fun x => iogen.golden x j) := by
  have answer := iogenOutputPatterns_run iogen (words_constInPat io size) []
  rw [List.length_map, size] at answer
  rw [classifyPO, answer, List.countP_map]
  exact congrArg outputType (List.countP_congr fun x _ => by simp)

/-- A value that all rows have is the classification. -/
theorem outputType_constant {rows : List (Fin n → Bool)} (size : rows.length = patternNums)
    {f : (Fin n → Bool) → Bool} (bit : Bool) (constant : ∀ x, f x = bit) :
    outputType (rows.countP f) = bit.toNat := by
  cases bit with
  | false =>
      have none : rows.countP f = 0 := List.countP_eq_zero.mpr fun x _ => by simp [constant x]
      rw [none, outputType, if_pos (.inl rfl)]
      rfl
  | true =>
      have all : rows.countP f = patternNums := by
        rw [← size]
        exact List.countP_eq_length.mpr fun x _ => constant x
      rw [all, outputType, if_neg (by norm_num [patternNums]), if_pos (.inl rfl)]
      rfl

/-- A constant output is recognised. -/
theorem classifyPO_constant (iogen : Iogen io) {rows : List (Fin n → Bool)}
    (size : rows.length = patternNums) (j : Fin m) (bit : Bool)
    (constant : ∀ x, iogen.golden x j = bit) :
    classifyPO n (iogen.run (constInPat io.names rows)) j = bit.toNat := by
  rw [classifyPO_run iogen size]
  exact outputType_constant (by rw [List.length_map, size]) bit constant

end LogicRegression.ClassifyOutput
