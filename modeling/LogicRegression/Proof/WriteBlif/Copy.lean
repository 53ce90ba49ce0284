import LogicRegression.Construction.SatOpt
import LogicRegression.Construction.WriteBlif

namespace LogicRegression.WriteBlif

open Text SatOpt

/-- Reading all positions of a string gives the string. -/
theorem map_getD_range (text : Text) (d : Char) :
    (List.range text.length).map (fun j => text.getD j d) = text := by
  apply List.ext_getElem
  · simp
  · intro j left right
    simp [right]

/-- The words of the result file. -/
theorem words_writeResult {r m outputIndex : ℕ} {ioNames inputs cubes : List Text} {output : Text}
    (inputsPositive : 0 < r) (outputsPositive : 0 < m) (taken : ioNames.take r = inputs)
    (named : ioNames.getD (r + outputIndex) [] = output)
    (inputWords : ∀ name ∈ inputs, IsWord name) (outputWord : IsWord output)
    (size : ∀ cube ∈ cubes, cube.length = r)
    (solid : ∀ cube ∈ cubes, ∀ c ∈ cube, isSpace c = false) :
    words (writeResult r m outputIndex ioNames (cubes.map (· ++ ['1']))) =
      decimal r :: decimal 1 :: decimal cubes.length :: (inputs ++ [output]) ++
        cubes.flatMap fun cube => (cube ++ ['1']).map fun c => [c] := by
  have header : words (spaced [decimal r, decimal 1, decimal cubes.length]) =
      [decimal r, decimal 1, decimal cubes.length] := by
    apply words_spaced
    intro w inside
    fin_cases inside <;> exact decimal_isWord _
  have names : words (spaced (inputs ++ [output])) = inputs ++ [output] := by
    apply words_spaced
    intro w inside
    rcases List.mem_append.mp inside with listed | last
    · exact inputWords w listed
    · rw [List.mem_singleton.mp last]
      exact outputWord
  have line (cube : Text) (inside : cube ∈ cubes) :
      (List.range (r + 1)).map (fun j => [(cube ++ ['1']).getD j '\x00']) =
        (cube ++ ['1']).map fun c => [c] := by
    have whole := map_getD_range (cube ++ ['1']) '\x00'
    rw [List.length_append, List.length_singleton, size cube inside] at whole
    conv_rhs => rw [← whole, List.map_map]
    rfl
  have rows : words ((cubes.map (· ++ ['1'])).flatMap fun result =>
      spaced ((List.range (r + 1)).map fun j => [result.getD j '\x00']) ++ ['\n']) =
        cubes.flatMap fun cube => (cube ++ ['1']).map fun c => [c] := by
    rw [List.flatMap_map, ← words_rows (fun cube => cube ++ ['1']) cubes]
    · congr 1
      apply List.flatMap_congr
      intro cube inside
      rw [line cube inside]
    · intro cube inside c listed
      rcases List.mem_append.mp listed with early | last
      · exact solid cube inside c early
      · rw [List.mem_singleton.mp last]
        decide
  rw [writeResult, if_neg (by omega), taken, named, words_append_cons _ _ (by decide),
    words_append_cons _ _ (by decide), List.length_map, header, names, rows]
  simp

/-- The row loop copies each cube and marks it with the value `1`. -/
theorem writeRows_cubes {r : ℕ} {cubes : List Text} (size : ∀ cube ∈ cubes, cube.length = r) :
    writeRows r 1 cubes.length (cubes.flatMap fun cube => (cube ++ ['1']).map fun c => [c]) =
      cubes.flatMap fun cube => cube ++ lit " 1" ++ ['\n'] := by
  induction cubes with
  | nil => rfl
  | cons cube cubes ih =>
      have tail := ih fun other inside => size other (by simp [inside])
      have length := size cube (by simp)
      have cells (rest : Stream) : extractFresh (r + 1)
          (((cube ++ ['1']).map fun c => [c]) ++ rest) =
            ((cube ++ ['1']).map (fun c => [c]), rest) := by
        have count : r + 1 = ((cube ++ ['1']).map fun c => [c]).length := by simp [length]
        rw [count]
        exact extractFresh_append _ rest
      have value : ((cube ++ ['1']).map fun c => [c]).getD r [] = ['1'] := by
        simp [← length]
      have plane : (((cube ++ ['1']).map fun c => [c]).take r).flatten = cube := by
        rw [← List.map_take, ← length, List.take_left, ← List.flatMap_def]
        simp
      simp only [List.length_cons, List.flatMap_cons, writeRows, cells, value, if_true, plane, tail]

/-- The name loop marks only the output. -/
theorem flatten_names (inputs : List Text) (output : Text) :
    (((inputs ++ [output]).mapIdx fun i temp =>
      ' ' :: (temp ++ if i = inputs.length then lit "_main" else [])).flatten : Text) =
      (inputs ++ [output ++ lit "_main"]).flatMap fun name => ' ' :: name := by
  have plain : (inputs.mapIdx fun i temp =>
      ' ' :: (temp ++ if i = inputs.length then lit "_main" else [])) =
        inputs.map fun name => ' ' :: name := by
    apply List.ext_getElem
    · simp
    · intro i left right
      have inside : i < inputs.length := by simpa using right
      simp [Nat.ne_of_lt inside]
  rw [List.mapIdx_append, plain, List.flatten_append, List.flatMap_append, List.flatMap_def]
  simp

/-- `WriteBlif` turns the result file into one table. -/
theorem writeBlif_writeResult {r m outputIndex : ℕ} {ioNames inputs cubes : List Text}
    {output : Text} (inputsPositive : 0 < r) (outputsPositive : 0 < m)
    (taken : ioNames.take r = inputs) (count : inputs.length = r)
    (named : ioNames.getD (r + outputIndex) [] = output)
    (inputWords : ∀ name ∈ inputs, IsWord name) (outputWord : IsWord output)
    (size : ∀ cube ∈ cubes, cube.length = r)
    (solid : ∀ cube ∈ cubes, ∀ c ∈ cube, isSpace c = false) :
    writeBlif (writeResult r m outputIndex ioNames (cubes.map (· ++ ['1']))) =
      spaced (lit ".names" :: (inputs ++ [output ++ lit "_main"])) ++ '\n' ::
        cubes.flatMap fun cube => cube ++ lit " 1" ++ ['\n'] := by
  have file := words_writeResult inputsPositive outputsPositive taken named inputWords outputWord
    size solid
  have names (rest : Stream) : extractMany [] (r + 1) ((inputs ++ [output]) ++ rest) =
      (inputs ++ [output], rest) := by
    have total : r + 1 = (inputs ++ [output]).length := by simp [count]
    rw [total]
    exact extractMany_append [] _ rest
  rw [writeBlif, file]
  simp only [List.cons_append, extractNat_decimal, names, writeRows_cubes size, spaced_cons]
  rw [← count, flatten_names]

/-- The text without an early return is copied; the empty file gives a table without signals. -/
theorem writeBlif_nil : writeBlif [] = lit ".names" ++ ['\n'] := by
  simp [writeBlif, extractNat, extractMany, writeRows]

end LogicRegression.WriteBlif
