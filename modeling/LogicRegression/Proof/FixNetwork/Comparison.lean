import LogicRegression.Construction.FixNetwork
import LogicRegression.Library.Blif
import LogicRegression.Proof.Iogen.Reference

namespace LogicRegression.FixNetwork

open Text Binary

variable {n m : ℕ} {io : IoNames n m}

/-- The written file has the words of a pattern file. -/
theorem words_fixInPat (io : IoNames n m) (patterns : List (Fin n → Bool)) :
    words (fixInPat io.names patterns) = patternWords io.names patterns := by
  rw [fixInPat, words_append_cons _ _ (by decide), words_append_cons _ _ (by decide), words_header,
    words_spaced io.inputWords, words_vectors]
  simp [patternWords]

/-- The row loops read the rows of a long enough stream. -/
theorem readCells_flatten {cells : ℕ} {rows : List (List Text)}
    (size : ∀ row ∈ rows, row.length = cells) (temp : Text) (rest : Stream) :
    (readCells cells rows.length temp (rows.flatten ++ rest)).1 = rows := by
  induction rows generalizing temp with
  | nil => rfl
  | cons row rows ih =>
      have read : extractMany temp cells (row ++ (rows.flatten ++ rest)) =
          (row, rows.flatten ++ rest) := by
        rw [← size row List.mem_cons_self]
        exact extractMany_append temp row (rows.flatten ++ rest)
      have later := ih (fun other inside => size other (List.mem_cons_of_mem row inside))
        (row.getLastD temp)
      rw [List.flatten_cons, List.append_assoc, List.length_cons, readCells, read]
      exact congrArg (row :: ·) later

theorem bitsOf_bitWords {count : ℕ} (vector : Fin count → Bool) :
    bitsOf (bitWords vector) = List.ofFn vector := by
  have bit (b : Bool) : decide ([bitChar b] = ['1']) = b := by cases b <;> rfl
  have same : ((fun cell : Text => decide (cell = ['1'])) ∘ fun b => [bitChar b]) = id := by
    funext b
    exact bit b
  rw [bitsOf, bitWords, List.map_map, same, List.map_id]

/-- The log of the Verilog simulator gives the outputs of the circuit. -/
theorem sisOutputPatterns_run (simulator : Ncverilog io) {patterns : List (Fin n → Bool)}
    {file : Text} (written : words file = patternWords io.names patterns) :
    (sisOutputPatterns m patterns.length (simulator.run file)).1 =
      patterns.map fun x => List.ofFn (simulator.circuit x) := by
  have size : ∀ row ∈ patterns.map fun x => bitWords (simulator.circuit x), row.length = m := by
    intro row listed
    obtain ⟨x, -, rfl⟩ := List.mem_map.mp listed
    exact bitWords_length _
  have read := readCells_flatten size [] []
  rw [List.append_nil, List.length_map, ← List.flatMap_def, ← simulator.answers patterns file
    written] at read
  change (readCells m patterns.length [] (words (simulator.run file))).1.map bitsOf = _
  rw [read, List.map_map]
  apply List.map_congr_left
  intro x _
  exact bitsOf_bitWords _

/-- The relation file gives the golden outputs. -/
theorem iogenOutputPatterns_run (iogen : Iogen io) {patterns : List (Fin n → Bool)} {file : Text}
    (written : words file = patternWords io.names patterns) (temp : Text) :
    iogenOutputPatterns n m patterns.length temp (iogen.run file) =
      patterns.map fun x => List.ofFn (iogen.golden x) := by
  let rows := patterns.map fun x => bitWords x ++ bitWords (iogen.golden x)
  have size : ∀ row ∈ rows, row.length = n + m := by
    intro row listed
    obtain ⟨x, -, rfl⟩ := List.mem_map.mp listed
    rw [List.length_append, bitWords_length, bitWords_length]
  let header := decimal n :: decimal m :: decimal patterns.length :: io.names
  have file : words (iogen.run file) = header ++ rows.flatten := by
    rw [iogen.answers patterns file written, relationWords, List.flatMap_def]
  have skip : extractMany temp (3 + (n + m)) (header ++ rows.flatten) = (header, rows.flatten) := by
    have count : 3 + (n + m) = header.length := by
      simp only [header, List.length_cons, io.size]
      omega
    rw [count]
    exact extractMany_append temp header rows.flatten
  have read := readCells_flatten size (header.getLastD temp) []
  rw [List.append_nil, List.length_map] at read
  rw [iogenOutputPatterns, file, skip]
  dsimp only
  rw [read, List.map_map]
  apply List.map_congr_left
  intro x _
  rw [Function.comp_apply, List.drop_left' (bitWords_length x), bitsOf_bitWords]

/-- A list of faulty patterns has the tested ones with this pair of values. -/
theorem faultPattern_map (value : Bool) (po : Fin m) (patterns : List (Fin n → Bool))
    (golden circuit : (Fin n → Bool) → Fin m → Bool) :
    faultPattern value po patterns (patterns.map fun x => List.ofFn (golden x))
        (patterns.map fun x => List.ofFn (circuit x)) =
      patterns.filter fun x => golden x po = value ∧ circuit x po = !value := by
  have zipped : patterns.zip ((patterns.map fun x => List.ofFn (golden x)).zip
      (patterns.map fun x => List.ofFn (circuit x))) =
        patterns.map fun x => (x, List.ofFn (golden x), List.ofFn (circuit x)) := by
    induction patterns with
    | nil => rfl
    | cons x patterns ih => simp [ih]
  rw [faultPattern, zipped, List.filter_map, List.map_map]
  have same : ((fun entry : (Fin n → Bool) × List Bool × List Bool =>
      decide (entry.2.1.getD po false = value ∧ entry.2.2.getD po false = !value)) ∘
        fun x => (x, List.ofFn (golden x), List.ofFn (circuit x))) =
          fun x => decide (golden x po = value ∧ circuit x po = !value) := by
    funext x
    simp
  rw [same]
  exact List.map_id _

/-- The comparison finds the tested patterns at which the circuit differs from the simulator. -/
theorem compare_run (iogen : Iogen io) (simulator : Ncverilog io) (po : Fin m)
    (patterns : List (Fin n → Bool)) :
    compare m po patterns (simulator.run (fixInPat io.names patterns))
        (iogen.run (fixInPat io.names patterns)) =
      ⟨patterns.filter fun x => iogen.golden x po = true ∧ simulator.circuit x po = false,
        patterns.filter fun x => iogen.golden x po = false ∧ simulator.circuit x po = true⟩ := by
  have written := words_fixInPat io patterns
  rw [compare, sisOutputPatterns_run simulator written, iogenOutputPatterns_run iogen written,
    faultPattern_map, faultPattern_map]
  rfl

section Blif

variable (realPI : List (Fin n))

/-- A row covers the vectors that agree with its pattern on the real inputs. -/
theorem covers_faultRow (x y : Fin n → Bool) :
    Cube.Covers '-' (faultRow realPI y) ((List.finRange n).map fun j => bitChar (x j)) ↔
      ∀ j ∈ realPI, x j = y j := by
  rw [Cube.Covers, faultRow, List.forall₂_map_left_iff, List.forall₂_map_right_iff,
    List.forall₂_same]
  have bit (b : Bool) : bitChar b ≠ '-' := by cases b <;> decide
  constructor
  · intro all j real
    have cell := all j (List.mem_finRange j)
    rw [if_pos real] at cell
    exact (bitChar_inj.mp (cell.resolve_left (bit (y j)))).symm
  · intro agree j _
    by_cases real : j ∈ realPI
    · rw [if_pos real, agree j real]
      exact .inr rfl
    · exact .inl (if_neg real)

/-- The text of a fault file is read as one table over all inputs. -/
theorem readNames_faultBlif (io : IoNames n m) (po : Fin m) {fault wire : Text} {value : Char}
    (faultSolid : ∀ c ∈ fault, isSpace c = false) (wireSolid : ∀ c ∈ wire, isSpace c = false)
    (solid : isSpace value = false) (noDot : value ≠ '.') (patterns : List (Fin n → Bool)) :
    Blif.readNames (faultBlif fault wire value io.names po realPI patterns) =
      [⟨io.names.take n, io.output po ++ wire,
        patterns.map fun x => (faultRow realPI x, [value])⟩] := by
  have nameWords := io.inputWords
  have outputWord : IsWord (io.output po ++ wire) :=
    (io.words _ (List.getElem_mem _)).append wireSolid
  have numbered : IsWord (lit "submodule" ++ decimal po ++ fault) :=
    (IsWord.append ⟨by decide, by decide⟩ (decimal_isWord po).solid).append faultSolid
  have modelLine : lit ".model submodule" ++ decimal po ++ fault =
      spaced [lit ".model", lit "submodule" ++ decimal po ++ fault] := by
    rw [spaced_cons, List.append_assoc, List.append_assoc]
    simp
    rfl
  have inputLine : lit ".inputs" ++ (io.names.take n).flatMap (fun name => ' ' :: name) =
      spaced (lit ".inputs" :: io.names.take n) := (spaced_cons _ _).symm
  have outputLine : lit ".outputs " ++ (io.output po ++ wire) =
      spaced [lit ".outputs", io.output po ++ wire] := by
    rw [spaced_cons]
    simp
    rfl
  have namesLine : lit ".names" ++ (io.names.take n).flatMap (fun name => ' ' :: name) ++
      ' ' :: (io.output po ++ wire) =
        spaced (lit ".names" :: (io.names.take n ++ [io.output po ++ wire])) := by
    rw [spaced_cons, List.flatMap_append, List.flatMap_singleton, List.append_assoc]
  have output : io.names.getD (n + po) [] = io.output po := by
    have place : n + po.val < io.names.length := by rw [io.size]; omega
    exact (List.getElem_eq_getD (h := place) []).symm
  have blank {w : Text} (word : IsWord w) {ws : List Text} (all : ∀ v ∈ ws, IsWord v) :
      ∀ v ∈ w :: ws, IsWord v := by
    intro v inside
    rcases List.mem_cons.mp inside with rfl | listed
    · exact word
    · exact all v listed
  have rowSolid : ∀ row ∈ patterns.map (faultRow realPI), ∀ c ∈ row, isSpace c = false ∧ c ≠ '.' := by
    intro row listed c inside
    obtain ⟨x, -, rfl⟩ := List.mem_map.mp listed
    obtain ⟨j, -, rfl⟩ := List.mem_map.mp inside
    split
    · cases x j <;> decide
    · decide
  have rows : (patterns.flatMap fun x => faultRow realPI x ++ [' ', value] ++ ['\n']) =
      (patterns.map (faultRow realPI)).flatMap fun row => row ++ [' ', value] ++ ['\n'] := by
    rw [List.flatMap_map]
  rw [faultBlif, output, modelLine, inputLine, outputLine, namesLine, rows,
    Blif.readNames_skip_spaced (blank ⟨by decide, by decide⟩ (blank numbered (by simp))) (by decide),
    Blif.readNames_skip_spaced (blank ⟨by decide, by decide⟩ nameWords) (by decide),
    Blif.readNames_skip_spaced (blank ⟨by decide, by decide⟩ (blank outputWord (by simp)))
      (by decide),
    Blif.readNames_table nameWords outputWord solid noDot
      (fun row listed c inside => (rowSolid row listed c inside).1)
      (fun row listed dot => (rowSolid row listed '.' dot).2 rfl) (by decide), List.map_map]
  rfl

end Blif

end LogicRegression.FixNetwork
