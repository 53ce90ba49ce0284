import LogicRegression.Construction.Simulate
import LogicRegression.Proof.FixNetwork.Comparison
import LogicRegression.Proof.Testbench.Header

namespace LogicRegression.Testbench

open Text Binary FixNetwork

section Scan

/-- A bit behind white space is read when no digit follows. -/
theorem scanBit_bit (gap : Text) (blank : ∀ c ∈ gap, isSpace c) (bit : Bool) {c : Char} {rest : Text}
    (noDigit : c.isDigit = false) :
    scanBit (gap ++ bitChar bit :: c :: rest) = some (bit, c :: rest) := by
  have solid : isSpace (bitChar bit) = false := by cases bit <;> decide
  have digit : (bitChar bit).isDigit = true := by cases bit <;> decide
  have skipped : (gap ++ bitChar bit :: c :: rest).dropWhile isSpace = bitChar bit :: c :: rest := by
    rw [List.dropWhile_append_of_pos blank, List.dropWhile_cons_of_neg (by simp [solid])]
  have taken : (bitChar bit :: c :: rest).takeWhile Char.isDigit = [bitChar bit] := by
    rw [List.takeWhile_cons_of_pos digit, List.takeWhile_cons_of_neg (by simp [noDigit])]
  have left : (bitChar bit :: c :: rest).dropWhile Char.isDigit = c :: rest := by
    rw [List.dropWhile_cons_of_pos digit, List.dropWhile_cons_of_neg (by simp [noDigit])]
  have value : decide (Nat.ofDigitChars 10 [bitChar bit] 0 % 2 = 1) = bit := by
    cases bit <;> decide
  simp only [scanBit, skipped, taken, left, value]
  exact if_neg (List.cons_ne_nil _ _)

/-- The bits of a line fill the registers, and the white space behind them is skipped. -/
theorem scanRow_bits (bits : List Bool) (rest : Text) :
    ∀ registers : List (Option Bool), registers.length = bits.length →
      scanRow registers (bits.flatMap (fun bit => [' ', bitChar bit]) ++ '\n' :: rest) =
        (bits.map some, rest.dropWhile isSpace) := by
  induction bits with
  | nil =>
      intro registers size
      rw [List.length_eq_zero_iff.mp size]
      exact congrArg (Prod.mk []) (List.dropWhile_cons_of_pos (by decide))
  | cons bit bits ih =>
      intro registers size
      obtain ⟨old, registers, rfl⟩ := List.exists_cons_of_length_eq_add_one size
      have later := ih registers (by simpa using size)
      have read : scanBit ((bit :: bits).flatMap (fun bit => [' ', bitChar bit]) ++ '\n' :: rest) =
          some (bit, bits.flatMap (fun bit => [' ', bitChar bit]) ++ '\n' :: rest) := by
        cases bits with
        | nil => exact scanBit_bit [' '] (by decide) bit (by decide)
        | cons next bits => exact scanBit_bit [' '] (by decide) bit (by decide)
      rw [scanRow, read]
      dsimp only
      rw [later]
      rfl

/-- A blank in front of a line does not matter. -/
theorem scanRow_blank (registers : List (Option Bool)) (file : Text) :
    scanRow registers (' ' :: file) = scanRow registers file := by
  have skip : (' ' :: file).dropWhile isSpace = file.dropWhile isSpace :=
    List.dropWhile_cons_of_pos (by decide)
  have same : scanBit (' ' :: file) = scanBit file := by rw [scanBit, scanBit, skip]
  cases registers with
  | nil => rw [scanRow, scanRow, skip]
  | cons old registers => rw [scanRow, scanRow, same, skip]

end Scan

variable {n m : ℕ}

/-- The lines of the rows. -/
def rowLines (rows : List (Fin n → Bool)) : Text :=
  rows.flatMap fun x => spaced (bitWords x) ++ ['\n']

theorem bitWords_spaced (x : Fin n → Bool) (positive : 0 < n) :
    ' ' :: spaced (bitWords x) = (List.ofFn x).flatMap fun bit => [' ', bitChar bit] := by
  obtain ⟨k, rfl⟩ := Nat.exists_eq_add_one_of_ne_zero positive.ne'
  rw [bitWords, List.ofFn_succ, List.map_cons, spaced_cons, List.flatMap_map, List.flatMap_cons]
  rfl

/-- The first row is read, and the next one starts the rest of the file. -/
theorem scanRow_rowLines (positive : 0 < n) (x : Fin n → Bool) (rows : List (Fin n → Bool))
    {registers : List (Option Bool)} (size : registers.length = n) :
    scanRow registers (rowLines (x :: rows)) = ((List.ofFn x).map some, rowLines rows) := by
  have start : (rowLines rows).dropWhile isSpace = rowLines rows := by
    cases rows with
    | nil => rfl
    | cons y rows =>
        obtain ⟨k, rfl⟩ := Nat.exists_eq_add_one_of_ne_zero positive.ne'
        have solid : isSpace (bitChar (y 0)) = false := by cases y 0 <;> decide
        rw [rowLines, List.flatMap_cons, bitWords, List.ofFn_succ, List.map_cons, spaced_cons]
        exact List.dropWhile_cons_of_neg (by simp [solid])
  have line : ' ' :: rowLines (x :: rows) =
      (List.ofFn x).flatMap (fun bit => [' ', bitChar bit]) ++ '\n' :: rowLines rows := by
    rw [← bitWords_spaced x positive, rowLines, List.flatMap_cons, List.append_assoc]
    rfl
  rw [← scanRow_blank, line, scanRow_bits _ _ _ (by simpa using size), start]

section Loop

/-- The circuit shows the bits of a function for registers that are known. -/
def Shows (circuit : List (Option Bool) → List Char) (f : (Fin n → Bool) → Fin m → Bool) : Prop :=
  ∀ x, circuit ((List.ofFn x).map some) = (List.ofFn (f x)).map bitChar

variable {circuit : List (Option Bool) → List Char} {f : (Fin n → Bool) → Fin m → Bool}

/-- The log has a line for each row. -/
def logLines (f : (Fin n → Bool) → Fin m → Bool) (rows : List (Fin n → Bool)) : Text :=
  rows.flatMap fun x => writeRow ((List.ofFn (f x)).map bitChar)

theorem runRowLoop_rows (positive : 0 < n) (shows : Shows circuit f) {rows : List (Fin n → Bool)}
    (some_ : rows ≠ []) {registers : List (Option Bool)} (size : registers.length = n) {fuel : ℕ}
    (enough : rows.length ≤ fuel) :
    runRowLoop circuit fuel registers (rowLines rows) = some (logLines f rows) := by
  induction rows generalizing registers fuel with
  | nil => exact absurd rfl some_
  | cons x rows ih =>
      obtain ⟨fuel, rfl⟩ := Nat.exists_eq_add_one_of_ne_zero (Nat.ne_zero_of_lt enough)
      simp only [runRowLoop, scanRow_rowLines positive x rows size, shows x]
      cases rows with
      | nil =>
          rw [if_pos (show rowLines [] = [] from rfl)]
          simp [logLines]
      | cons y rows =>
          have more : rowLines (y :: rows) ≠ [] := by simp [rowLines]
          have later : runRowLoop circuit fuel ((List.ofFn x).map some) (rowLines (y :: rows)) =
              some (logLines f (y :: rows)) :=
            ih (List.cons_ne_nil y rows) (by simp) (by simpa using enough)
          rw [if_neg more, later]
          rfl

theorem words_logLines (rows : List (Fin n → Bool)) :
    words (logLines f rows) = rows.flatMap fun x => bitWords (f x) := by
  have line (bits : List Bool) (rest : Text) :
      words (writeRow (bits.map bitChar) ++ rest) = (bits.map fun bit => [bitChar bit]) ++ words rest := by
    induction bits with
    | nil => exact words_cons_space rest (by decide)
    | cons bit bits ih =>
        have word : IsWord [bitChar bit] := by
          cases bit
          · exact ⟨by decide, by decide⟩
          · exact ⟨by decide, by decide⟩
        have split : writeRow ((bit :: bits).map bitChar) ++ rest =
            [bitChar bit] ++ ' ' :: (writeRow (bits.map bitChar) ++ rest) := by simp [writeRow]
        rw [split, words_append_cons _ _ (by decide), words_word word, ih]
        rfl
  induction rows with
  | nil => exact words_nil
  | cons x rows ih =>
      rw [logLines, List.flatMap_cons, line, List.flatMap_cons]
      exact congrArg (bitWords (f x) ++ ·) ih

end Loop

section Fuel

theorem readToNewline_mono {width fuel more : ℕ} {tmp : BitVec width} {file rest : Text}
    (returned : readToNewline fuel tmp file = some rest) (enough : fuel ≤ more) :
    readToNewline more tmp file = some rest := by
  induction fuel generalizing more tmp file with
  | zero => cases returned
  | succ fuel ih =>
      obtain ⟨more, rfl⟩ := Nat.exists_eq_add_one_of_ne_zero (Nat.ne_zero_of_lt enough)
      rw [readToNewline] at returned ⊢
      split at returned
      · next other =>
          rw [if_pos other]
          exact ih returned (by omega)
      · next newline =>
          rw [if_neg newline]
          exact returned

theorem skipHeader_mono {width fuel more : ℕ} {file rest : Text}
    (returned : skipHeader width fuel file = some rest) (enough : fuel ≤ more) :
    skipHeader width more file = some rest := by
  obtain ⟨middle, first, second⟩ := Option.bind_eq_some_iff.mp returned
  exact Option.bind_eq_some_iff.mpr
    ⟨middle, readToNewline_mono first enough, readToNewline_mono second enough⟩

variable {circuit : List (Option Bool) → List Char}

theorem runRowLoop_mono {fuel more : ℕ} {registers : List (Option Bool)} {file log : Text}
    (returned : runRowLoop circuit fuel registers file = some log) (enough : fuel ≤ more) :
    runRowLoop circuit more registers file = some log := by
  induction fuel generalizing more registers file log with
  | zero => cases returned
  | succ fuel ih =>
      obtain ⟨more, rfl⟩ := Nat.exists_eq_add_one_of_ne_zero (Nat.ne_zero_of_lt enough)
      simp only [runRowLoop] at returned ⊢
      split at returned
      · next ended =>
          rw [if_pos ended]
          exact returned
      · next left =>
          obtain ⟨later, rest, rfl⟩ := Option.map_eq_some_iff.mp returned
          rw [if_neg left, ih rest (by omega)]
          rfl

/-- More fuel does not change the log of a run that ends. -/
theorem simulate_mono {fuel more : ℕ} {inPat log : Text}
    (returned : simulate circuit n m fuel inPat = some log) (enough : fuel ≤ more) :
    simulate circuit n m more inPat = some log := by
  obtain ⟨rest, header, loop⟩ := Option.bind_eq_some_iff.mp returned
  exact Option.bind_eq_some_iff.mpr
    ⟨rest, skipHeader_mono header enough, runRowLoop_mono loop enough⟩

theorem simulate_unique {fuel more : ℕ} {inPat log other : Text}
    (returned : simulate circuit n m fuel inPat = some log)
    (again : simulate circuit n m more inPat = some other) : log = other := by
  have first := simulate_mono returned (Nat.le_max_left fuel more)
  rw [simulate_mono again (Nat.le_max_right fuel more)] at first
  exact (Option.some.inj first).symm

end Fuel

section Log

variable {circuit : List (Option Bool) → List Char} {f : (Fin n → Bool) → Fin m → Bool}

/-- The register tells a newline from the characters of the names. -/
structure Faithful (n m : ℕ) (names : List Text) : Prop where
  wide : 4 ≤ n + m
  apart : ∀ name ∈ names.take n, ∀ c ∈ name, c.toNat % 2 ^ (n + m) ≠ 10

/-- Behind the header without rows the loop runs once, and the registers are still unknown. -/
theorem simulate_empty {ioNames : List Text} (faithful : Faithful n m ioNames) :
    ∃ fuel, simulate circuit n m fuel (fixInPat ioNames ([] : List (Fin n → Bool))) =
      some (writeRow (circuit (List.replicate n none))) := by
  have header : ∃ fuel, skipHeader (n + m) fuel (fixInPat ioNames ([] : List (Fin n → Bool))) =
      some [] :=
    (names_skipped_iff fun c => decimal_isDigit).mpr ⟨faithful.wide, faithful.apart⟩
  obtain ⟨fuel, skipped⟩ := header
  have nothing (registers : List (Option Bool)) : scanRow registers [] = (registers, []) := by
    cases registers <;> rfl
  refine ⟨fuel + 1, Option.bind_eq_some_iff.mpr ⟨_, skipHeader_mono skipped (Nat.le_succ fuel), ?_⟩⟩
  simp only [runRowLoop, nothing, if_true]

/-- The testbench ends on a file with rows and writes the outputs of each row. -/
theorem simulate_rows {ioNames : List Text} (faithful : Faithful n m ioNames) (positive : 0 < n)
    (shows : Shows circuit f) {rows : List (Fin n → Bool)} (some_ : rows ≠ []) :
    ∃ fuel, simulate circuit n m fuel (fixInPat ioNames rows) = some (logLines f rows) := by
  have header : ∃ fuel, skipHeader (n + m) fuel (fixInPat ioNames rows) = some (rowLines rows) :=
    (names_skipped_iff fun c => decimal_isDigit).mpr ⟨faithful.wide, faithful.apart⟩
  obtain ⟨fuel, skipped⟩ := header
  refine ⟨fuel + rows.length, Option.bind_eq_some_iff.mpr ⟨_, skipHeader_mono skipped (by omega), ?_⟩⟩
  exact runRowLoop_rows positive shows some_ (List.length_replicate ..) (by omega)

end Log

section Compare

/-- The comparison reads the words of the log. -/
theorem compare_congr {log other : Text} (same : words log = words other) (outputNum po : ℕ)
    (patterns : List (Fin n → Bool)) (fixIoRel : Text) :
    FixNetwork.compare outputNum po patterns log fixIoRel =
      FixNetwork.compare outputNum po patterns other fixIoRel := by
  rw [FixNetwork.compare, FixNetwork.compare, sisOutputPatterns, sisOutputPatterns, same]

variable {io : IoNames n m} {f : (Fin n → Bool) → Fin m → Bool}

/-- A log with the outputs of the rows gives the patterns at which the circuit differs. -/
theorem compare_log (iogen : Iogen io) (po : Fin m) (rows : List (Fin n → Bool)) {log : Text}
    (written : words log = rows.flatMap fun x => bitWords (f x)) :
    FixNetwork.compare m po rows log (iogen.run (fixInPat io.names rows)) =
      ⟨rows.filter fun x => iogen.golden x po = true ∧ f x po = false,
        rows.filter fun x => iogen.golden x po = false ∧ f x po = true⟩ := by
  have answer := (referenceNcverilog io f).answers rows _ (words_fixInPat io rows)
  rw [compare_congr (written.trans answer.symm)]
  exact compare_run iogen (referenceNcverilog io f) po rows

end Compare

/-- On a file with rows the testbench of the repair ends, with one log only, and this log shows the
comparison exactly the rows at which the circuit is wrong. Without rows it writes one line all the
same. -/
theorem testbench_exact (io : IoNames n m) (faithful : Faithful n m io.names) (positive : 0 < n)
    (iogen : Iogen io) (circuit : List (Option Bool) → List Char) (f : (Fin n → Bool) → Fin m → Bool)
    (shows : Shows circuit f) (rows : List (Fin n → Bool)) (some_ : rows ≠ []) :
    (∃ log, (∃ fuel, simulate circuit n m fuel (fixInPat io.names rows) = some log) ∧
      (∀ fuel other, simulate circuit n m fuel (fixInPat io.names rows) = some other → other = log) ∧
      words log = rows.flatMap (fun x => bitWords (f x)) ∧
      ∀ po : Fin m, FixNetwork.compare m po rows log (iogen.run (fixInPat io.names rows)) =
        ⟨rows.filter fun x => iogen.golden x po = true ∧ f x po = false,
          rows.filter fun x => iogen.golden x po = false ∧ f x po = true⟩) ∧
      ∃ fuel, simulate circuit n m fuel (fixInPat io.names ([] : List (Fin n → Bool))) =
        some (writeRow (circuit (List.replicate n none))) := by
  obtain ⟨fuel, returned⟩ := simulate_rows faithful positive shows some_
  exact ⟨⟨_, ⟨fuel, returned⟩, fun more other again => simulate_unique again returned,
    words_logLines rows, fun po => compare_log iogen po rows (words_logLines rows)⟩,
    simulate_empty faithful⟩

/-- Three inputs and one output. -/
def benchNames : IoNames 3 1 where
  names := [lit "a", lit "b", lit "c", lit "z"]
  size := rfl
  words := by
    intro name listed
    fin_cases listed <;> exact ⟨by decide, by decide⟩
  distinct := by decide

/-- The circuit shows the first register. -/
def firstRegister (registers : List (Option Bool)) : List Char :=
  [(registers.headD none).elim 'x' bitChar]

theorem testbench_exact_sample :
    ∃ log, (∃ fuel, simulate firstRegister 3 1 fuel (fixInPat benchNames.names
        [![true, false, true]]) = some log) ∧
      (∀ fuel other, simulate firstRegister 3 1 fuel (fixInPat benchNames.names
        [![true, false, true]]) = some other → other = log) ∧
      words log = [lit "1"] ∧
      ∀ po : Fin 1, FixNetwork.compare 1 po [![true, false, true]] log
          ((referenceIogen benchNames fun x _ => x 1).run
            (fixInPat benchNames.names [![true, false, true]])) =
        ⟨[], [![true, false, true]]⟩ := by
  obtain ⟨⟨log, ended, unique, read, compared⟩, -⟩ := testbench_exact benchNames ⟨by decide, by decide⟩
    (by decide) (referenceIogen benchNames fun x _ => x 1) firstRegister (fun x _ => x 0)
    (fun x => rfl) [![true, false, true]] (by decide)
  refine ⟨log, ended, unique, read, fun po => ?_⟩
  rw [compared po]
  rfl

end LogicRegression.Testbench
