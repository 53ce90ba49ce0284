import LogicRegression.Construction.Verify

namespace LogicRegression.Testbench

open Text FixNetwork

/-- The testbench of the repair is one of the testbenches. -/
theorem fixNetwork_testbench (inputNum outputNum : ℕ) (ioNames : List Text) :
    FixNetwork.testbench inputNum outputNum ioNames =
      Testbench.text (lit "stimulus_fixnetwork") (lit "main_circuit main_1") (lit "_main")
        (lit "beyond_fix_in_pat.txt") (lit "beyond_fixnetwork_verify_log.txt") inputNum outputNum
        ioNames := by
  have head : lit "module stimulus_fixnetwork;\n\treg " =
      lit "module " ++ lit "stimulus_fixnetwork" ++ lit ";\n" ++ lit "\treg " := by simp [lit]
  have register : lit ";\n\treg[" = lit ";\n" ++ lit "\treg[" := by simp [lit]
  have circuit : lit ":0] tmp;\n\tinteger fp_r, fp_w, i, temp;\n\tmain_circuit main_1(\n" =
      lit ":0] tmp;\n" ++ lit "\tinteger fp_r, fp_w, i, temp;\n" ++ lit "\t" ++
        lit "main_circuit main_1" ++ lit "(\n" := by simp [lit]
  have output : lit "_main(" = lit "_main" ++ lit "(" := by simp [lit]
  have begins : lit "\n\t);\n\n\tinitial begin\n" =
      lit "\n\t);\n\n" ++ lit "\tinitial begin\n" := by simp [lit]
  have inPat : lit "\t\tfp_r = $fopen(\"beyond_fix_in_pat.txt\", \"r\");\n" =
      lit "\t\tfp_r = $fopen(\"" ++ lit "beyond_fix_in_pat.txt" ++ lit "\", \"r\");\n" := by
    simp [lit]
  have log : lit "\t\tfp_w = $fopen(\"beyond_fixnetwork_verify_log.txt\", \"w\");\n" =
      lit "\t\tfp_w = $fopen(\"" ++ lit "beyond_fixnetwork_verify_log.txt" ++
        lit "\", \"w\");\n" := by simp [lit]
  have ends : lit ");\n\t\tend\n\t\t$fclose(fp_r);\n\t\t$fclose(fp_w);\n\tend\nendmodule" =
      lit ");\n\t\tend\n" ++ lit "\t\t$fclose(fp_r);\n\t\t$fclose(fp_w);\n\tend\nendmodule" := by
    simp [lit]
  unfold FixNetwork.testbench Testbench.text pins instantiation rowLoop tmpDeclaration headerLoop
  simp only [head, register, circuit, output, begins, inPat, log, ends, List.append_assoc]

/-- Each testbench declares the register with one bit for each pin. -/
theorem declares_tmp {name circuit suffix inPat log : Text} {n m : ℕ} {ioNames : List Text} :
    tmpDeclaration n m <:+: Testbench.text name circuit suffix inPat log n m ioNames := by
  unfold Testbench.text
  simp only [List.append_assoc]
  repeat first
    | exact List.infix_append_left
    | apply List.infix_append_of_infix_right

/-- Each testbench skips the header with the same loop. -/
theorem contains_headerLoop {name circuit suffix inPat log : Text} {n m : ℕ}
    {ioNames : List Text} :
    headerLoop <:+: Testbench.text name circuit suffix inPat log n m ioNames := by
  unfold Testbench.text
  simp only [List.append_assoc]
  repeat first
    | exact List.infix_append_left
    | apply List.infix_append_of_infix_right

variable {width fuel : ℕ} {c : Char} {file rest : Text}

/-- The register takes these characters for a newline. -/
def isNewline (width : ℕ) (c : Char) : Bool := c.toNat % 2 ^ width = 10

/-- A register with fewer than four bits never holds the code of a newline. -/
theorem wide_of_isNewline (newline : isNewline width c) : 4 ≤ width := by
  have code : c.toNat % 2 ^ width = 10 := of_decide_eq_true newline
  by_contra narrow
  have small : 2 ^ width ≤ 2 ^ 3 := Nat.pow_le_pow_right (by decide) (by omega)
  have bound := Nat.mod_lt c.toNat (Nat.two_pow_pos width)
  omega

theorem isNewline_newline (wide : 4 ≤ width) : isNewline width '\n' := by
  have large : 2 ^ 4 ≤ 2 ^ width := Nat.pow_le_pow_right (by decide) wide
  have code : ('\n').toNat = 10 := by decide
  rw [isNewline, code, Nat.mod_eq_of_lt (by omega)]
  rfl

/-- Blanks and digits are read faithfully when a newline is. -/
theorem isNewline_low (wide : 4 ≤ width) (low : c = ' ' ∨ c.isDigit) :
    isNewline width c = false := by
  have range : c.toNat = 32 ∨ 48 ≤ c.toNat ∧ c.toNat ≤ 57 := by
    rcases low with rfl | digit
    · exact .inl (by decide)
    · rw [Char.isDigit, Bool.and_eq_true, decide_eq_true_eq, decide_eq_true_eq] at digit
      exact .inr digit
  rw [isNewline, decide_eq_false_iff_not]
  obtain four | five | more : width = 4 ∨ width = 5 ∨ 6 ≤ width := by omega
  · subst four
    omega
  · subst five
    omega
  · have large : 2 ^ 6 ≤ 2 ^ width := Nat.pow_le_pow_right (by decide) more
    rw [Nat.mod_eq_of_lt (by omega)]
    omega

section Lines

/-- Each character is read once, and the first one that counts as a newline ends the line. -/
theorem skipLine_cons :
    skipLine width (fuel + 1) (c :: rest) =
      if isNewline width c then some rest else skipLine width fuel rest := by
  have code : (BitVec.ofInt width (c.toNat : ℤ)).toNat = c.toNat % 2 ^ width := by
    rw [BitVec.ofInt_natCast, BitVec.toNat_ofNat]
  rw [skipLine, fgetc, readToNewline, code]
  by_cases newline : c.toNat % 2 ^ width = 10
  · rw [if_neg (not_not_intro newline), if_pos (by simpa [isNewline] using newline)]
  · rw [if_pos newline, if_neg (by simpa [isNewline] using newline), skipLine]

/-- At the end of the file the loop reads on for ever. -/
theorem skipLine_nil : skipLine width fuel [] = none := by
  have code : (BitVec.ofInt width (-1)).toNat ≠ 10 := by
    have ones : (BitVec.ofInt width (-1)).toNat = 2 ^ width - 1 := by
      rw [BitVec.ofInt_neg, BitVec.ofInt_ofNat, BitVec.neg_one_eq_allOnes, BitVec.toNat_allOnes]
    intro ten
    have power : 2 ^ width = 11 := by omega
    cases width with
    | zero => exact absurd power (by decide)
    | succ width => omega
  rw [skipLine, fgetc]
  induction fuel with
  | zero => rfl
  | succ fuel ih => rw [readToNewline, if_pos code, fgetc, ih]

/-- A line up to its first newline is skipped with enough fuel. -/
theorem skipLine_line {line : Text} (before : ∀ d ∈ line, isNewline width d = false)
    (newline : isNewline width c) (enough : line.length < fuel) :
    skipLine width fuel (line ++ c :: rest) = some rest := by
  induction line generalizing fuel with
  | nil =>
      obtain ⟨fuel, rfl⟩ := Nat.exists_eq_add_one_of_ne_zero (Nat.ne_zero_of_lt enough)
      rw [List.nil_append, skipLine_cons, if_pos newline]
  | cons d line ih =>
      obtain ⟨other, before⟩ := List.forall_mem_cons.mp before
      obtain ⟨fuel, rfl⟩ := Nat.exists_eq_add_one_of_ne_zero (Nat.ne_zero_of_lt enough)
      rw [List.cons_append, skipLine_cons, if_neg (by rw [other]; decide)]
      exact ih before (by simpa using enough)

/-- A round of the loop ends behind the first character that counts as a newline. -/
theorem skipLine_eq_some_iff :
    (∃ fuel, skipLine width fuel file = some rest) ↔
      ∃ line c, file = line ++ c :: rest ∧ (∀ d ∈ line, isNewline width d = false) ∧
        isNewline width c := by
  constructor
  · intro ⟨fuel, returned⟩
    induction file generalizing fuel with
    | nil =>
        rw [skipLine_nil] at returned
        cases returned
    | cons c file ih =>
        cases fuel with
        | zero => cases returned
        | succ fuel =>
            rw [skipLine_cons] at returned
            split at returned
            · next newline =>
                cases returned
                exact ⟨[], c, rfl, by simp, newline⟩
            · next other =>
                obtain ⟨line, d, split, before, newline⟩ := ih fuel returned
                exact ⟨c :: line, d, by rw [split, List.cons_append],
                  List.forall_mem_cons.mpr ⟨Bool.eq_false_of_not_eq_true other, before⟩, newline⟩
  · intro ⟨line, c, split, before, newline⟩
    rw [split]
    exact ⟨line.length + 1, skipLine_line before newline (Nat.lt_succ_self _)⟩

/-- The characters that count as newlines in the two lines are the last ones. -/
theorem skipHeader_exact_iff {first second : Text} :
    (∃ fuel, skipHeader width fuel (first ++ '\n' :: (second ++ '\n' :: rest)) = some rest) ↔
      4 ≤ width ∧ (∀ c ∈ first, isNewline width c = false) ∧
        ∀ c ∈ second, isNewline width c = false := by
  constructor
  · intro ⟨fuel, returned⟩
    obtain ⟨middle, skipped, returned⟩ := Option.bind_eq_some_iff.mp returned
    obtain ⟨line, c, split, before, newline⟩ := skipLine_eq_some_iff.mp ⟨fuel, skipped⟩
    obtain ⟨later, d, rfl, after, last⟩ := skipLine_eq_some_iff.mp ⟨fuel, returned⟩
    have wide := wide_of_isNewline newline
    -- The two sides have two newlines each before the rest.
    have same : first ++ '\n' :: (second ++ ['\n']) ++ rest = line ++ c :: (later ++ [d]) ++ rest := by
      simpa using split
    have count := congrArg (List.countP (isNewline width)) (List.append_cancel_right same)
    have none {line : Text} (other : ∀ d ∈ line, isNewline width d = false) :
        line.countP (isNewline width) = 0 :=
      List.countP_eq_zero.mpr fun d inside => by rw [other d inside]; decide
    simp only [List.countP_append, List.countP_cons_of_pos, newline, last,
      isNewline_newline wide, List.countP_nil, none before, none after] at count
    have clean {line : Text} (other : line.countP (isNewline width) = 0) :
        ∀ d ∈ line, isNewline width d = false := fun d inside =>
      Bool.eq_false_of_not_eq_true (List.countP_eq_zero.mp other d inside)
    exact ⟨wide, clean (by omega), clean (by omega)⟩
  · intro ⟨wide, before, after⟩
    use first.length + second.length + 1
    rw [skipHeader, skipLine_line before (isNewline_newline wide) (by omega), Option.bind_some,
      skipLine_line after (isNewline_newline wide) (by omega)]

end Lines

section Files

variable {n m : ℕ} {ioNames : List Text}

/-- The names alone decide whether the header is skipped, when the counts are digits. -/
theorem names_skipped_iff {count : Text} (digits : ∀ c ∈ count, c.isDigit) :
    (∃ fuel, skipHeader width fuel (spaced [decimal n, count] ++ '\n' ::
        (spaced ioNames ++ '\n' :: rest)) = some rest) ↔
      4 ≤ width ∧ ∀ name ∈ ioNames, ∀ c ∈ name, c.toNat % 2 ^ width ≠ 10 := by
  rw [skipHeader_exact_iff]
  apply and_congr_right
  intro wide
  have blank : isNewline width ' ' = false := isNewline_low wide (.inl rfl)
  rw [forall_spaced (p := (isNewline width · = false)) blank,
    forall_spaced (p := (isNewline width · = false)) blank]
  have counts : ∀ w ∈ [decimal n, count], ∀ c ∈ w, isNewline width c = false := by
    rw [List.forall_mem_cons, List.forall_mem_singleton]
    constructor
    · exact fun c inside => isNewline_low wide (.inr (decimal_isDigit inside))
    · exact fun c inside => isNewline_low wide (.inr (digits c inside))
  rw [and_iff_right counts]
  simp only [isNewline, decide_eq_false_iff_not, ne_eq]

/-- The testbenches skip exactly the header when the register tells newlines from all names. -/
theorem header_skipped_iff (n m : ℕ) (ioNames : List Text) :
    ((∀ patterns : List (Fin n → Bool), ∃ fuel,
        skipHeader (n + m) fuel (fixInPat ioNames patterns) =
          some (patterns.flatMap fun x => spaced (bitWords x) ++ ['\n'])) ∧
      ∀ (patternNumS : Text) (rows : List (Fin n → Bool)), (∀ c ∈ patternNumS, c.isDigit) →
        ∃ fuel, skipHeader (n + m) fuel (Verify.verifyInPat ioNames patternNumS rows) =
          some (rows.flatMap fun x => spaced (bitWords x).reverse ++ ['\n'])) ↔
      4 ≤ n + m ∧ ∀ name ∈ ioNames.take n, ∀ c ∈ name, c.toNat % 2 ^ (n + m) ≠ 10 := by
  constructor
  · intro ⟨skipped, _⟩
    exact (names_skipped_iff fun c => decimal_isDigit).mp (skipped [])
  · intro faithful
    constructor
    · exact fun patterns => (names_skipped_iff fun c => decimal_isDigit).mpr faithful
    · exact fun count rows digits => (names_skipped_iff digits).mpr faithful

/-- With three pins the register never holds the code of a newline. -/
theorem header_endless :
    ¬ ∀ (n m : ℕ) (ioNames : List Text), 0 < n → 0 < m → ioNames.length = n + m →
      (∀ name ∈ ioNames, ∀ c ∈ name, 33 ≤ c.toNat ∧ c.toNat ≤ 126) →
      ∀ patterns : List (Fin n → Bool), ∃ fuel,
        skipHeader (n + m) fuel (fixInPat ioNames patterns) =
          some (patterns.flatMap fun x => spaced (bitWords x) ++ ['\n']) := by
  intro skipped
  have ends := skipped 2 1 [lit "a", lit "b", lit "c"] (by decide) (by decide) (by decide)
    (by decide) []
  have wide := ((names_skipped_iff fun c => decimal_isDigit).mp ends).1
  omega

end Files

end LogicRegression.Testbench
