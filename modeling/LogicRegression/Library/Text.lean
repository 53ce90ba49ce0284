import Mathlib.Tactic
import Mathlib.Data.List.TakeWhile

namespace LogicRegression

/-- A string or a whole file is the list of its characters. -/
abbrev Text := List Char

namespace Text

/-- A literal of the source; the wrapper keeps it folded in proofs. -/
def lit (s : String) : Text := s.toList

/-- The tests for equal texts and for equal positions decide equality. -/
instance (priority := 2000) lawfulText : LawfulBEq (List Char) := inferInstance

instance (priority := 2000) lawfulFin (n : ℕ) : LawfulBEq (Fin n) := inferInstance

/-- A statement about the characters of a text is decided character by character. -/
instance (priority := 2000) decidableChars (text : List Char) (p : Char → Prop) [DecidablePred p] :
    Decidable (∀ c ∈ text, p c) := List.decidableBAll p text

/-- These are the space characters of the C locale. -/
def isSpace (c : Char) : Bool := [' ', '\t', '\n', '\x0b', '\x0c', '\r'].contains c

/-- A word is a non-empty text that `>>` reads as one string. -/
structure IsWord (w : Text) : Prop where
  nonempty : w ≠ []
  solid : ∀ c ∈ w, isSpace c = false

theorem IsWord.append {w suffix : Text} (word : IsWord w) (solid : ∀ c ∈ suffix, isSpace c = false) :
    IsWord (w ++ suffix) := by
  refine ⟨by simp [word.nonempty], fun c inside => ?_⟩
  rcases List.mem_append.mp inside with own | added
  · exact word.solid c own
  · exact solid c added

/-- The successive strings that `>>` extracts from a text. -/
def words (text : Text) : List Text :=
  (text.splitOnP isSpace).filter fun w => !w.isEmpty

@[simp] theorem words_nil : words [] = [] := by simp [words]

/-- A space separates the words before it from the words after it. -/
theorem words_append_cons (first rest : Text) {s : Char} (space : isSpace s) :
    words (first ++ s :: rest) = words first ++ words rest := by
  simp only [words, List.splitOnP_append_cons first rest space, List.filter_append]

@[simp] theorem words_cons_space (rest : Text) {s : Char} (space : isSpace s) :
    words (s :: rest) = words rest := by
  simpa using words_append_cons [] rest space

@[simp] theorem words_word {w : Text} (word : IsWord w) : words w = [w] := by
  have whole : w.splitOnP isSpace = [w] := List.splitOnP_eq_singleton word.solid
  simp [words, whole, word.nonempty]

/-- This is the text of some words with one blank between neighbours. -/
def spaced (ws : List Text) : Text := List.intercalate [' '] ws

theorem spaced_cons_cons (w v : Text) (ws : List Text) :
    spaced (w :: v :: ws) = w ++ ' ' :: spaced (v :: ws) := by
  simp [spaced, List.intercalate]

/-- The extraction recovers the words of a spaced text. -/
theorem words_spaced {ws : List Text} (all : ∀ w ∈ ws, IsWord w) : words (spaced ws) = ws := by
  induction ws with
  | nil => simp [spaced, List.intercalate]
  | cons w ws ih =>
      have first := words_word (all w (by simp))
      cases ws with
      | nil => simpa [spaced, List.intercalate] using first
      | cons v ws =>
          have tail := ih fun u inside => all u (by simp only [List.mem_cons] at inside ⊢; tauto)
          rw [spaced_cons_cons, words_append_cons _ _ (by decide), first, tail]
          rfl

/-- A spaced text puts a blank before each further word. -/
theorem spaced_cons (w : Text) (ws : List Text) :
    spaced (w :: ws) = w ++ ws.flatMap fun v => ' ' :: v := by
  induction ws generalizing w with
  | nil => simp [spaced, List.intercalate]
  | cons v ws ih => rw [spaced_cons_cons, ih, List.flatMap_cons, List.cons_append]

/-- The words of written rows are their characters. -/
theorem words_rows {A : Type} (row : A → Text) (items : List A)
    (solid : ∀ item ∈ items, ∀ c ∈ row item, isSpace c = false) :
    words (items.flatMap fun item => spaced ((row item).map fun c => [c]) ++ ['\n']) =
      items.flatMap fun item => (row item).map fun c => [c] := by
  induction items with
  | nil => simp
  | cons item items ih =>
      have tail := ih fun other inside => solid other (by simp [inside])
      have line : words (spaced ((row item).map fun c => [c])) = (row item).map fun c => [c] := by
        apply words_spaced
        intro w inside
        obtain ⟨c, listed, rfl⟩ := List.mem_map.mp inside
        exact ⟨by simp, fun d same => by
          obtain rfl := List.mem_singleton.mp same
          exact solid item (by simp) d listed⟩
      simp only [List.flatMap_cons, List.append_assoc, List.singleton_append]
      rw [words_append_cons _ _ (by decide), line, tail]

/-- A blank that has a property adds no condition on the characters of a spaced text. -/
theorem forall_spaced {p : Char → Prop} (blank : p ' ') {ws : List Text} :
    (∀ c ∈ spaced ws, p c) ↔ ∀ w ∈ ws, ∀ c ∈ w, p c := by
  cases ws with
  | nil => simp [spaced, List.intercalate]
  | cons w ws =>
      rw [spaced_cons, List.forall_mem_append, List.forall_mem_cons, List.forall_mem_flatMap]
      simp only [List.forall_mem_cons, blank, true_and]

/-- A spaced text of words has no line break. -/
theorem newline_notMem_spaced {ws : List Text} (all : ∀ w ∈ ws, IsWord w) : '\n' ∉ spaced ws := by
  have other := (forall_spaced (p := (· ≠ '\n')) (by decide)).mpr fun w listed c inside same =>
    absurd ((all w listed).solid c inside) (by rw [same]; decide)
  exact fun inside => other '\n' inside rfl

/-- The successive strings that `getline` reads from a text. -/
def lines (text : Text) : List Text :=
  let parts := text.splitOn '\n'
  if parts.getLast? = some [] then parts.dropLast else parts

@[simp] theorem lines_nil : lines [] = [] := rfl

/-- A line break ends the first line. -/
theorem lines_append_cons {line : Text} (single : '\n' ∉ line) (rest : Text) :
    lines (line ++ '\n' :: rest) = line :: lines rest := by
  have parts : (line ++ '\n' :: rest).splitOn '\n' = line :: rest.splitOn '\n' :=
    List.splitOn_append_cons_self_of_not_mem single rest
  obtain ⟨head, tail, same⟩ := List.exists_cons_of_ne_nil (List.splitOn_ne_nil '\n' rest)
  simp only [lines, parts, same, List.getLast?_cons_cons]
  split <;> simp

/-- A line break separates the lines before it from the lines after it. -/
theorem lines_append (first rest : Text) :
    lines (first ++ '\n' :: rest) = lines (first ++ ['\n']) ++ lines rest := by
  have parts (text : Text) : (first ++ '\n' :: text).splitOn '\n' =
      first.splitOn '\n' ++ text.splitOn '\n' := List.splitOnP_append_cons first text (by simp)
  have last (text : Text) : (first.splitOn '\n' ++ text.splitOn '\n').getLast? =
      (text.splitOn '\n').getLast? := by
    rw [List.getLast?_append_of_ne_nil _ (List.splitOn_ne_nil _ _)]
  have cut (text : Text) : lines (first ++ '\n' :: text) = first.splitOn '\n' ++ lines text := by
    simp only [lines, parts, last]
    split
    · rw [List.dropLast_append_of_ne_nil (List.splitOn_ne_nil _ _)]
    · rfl
  rw [cut rest, cut [], lines_nil, List.append_nil]

/-- The lines of a text built line by line are those lines. -/
theorem lines_flatMap {A : Type} (line : A → Text) (items : List A) (rest : Text)
    (single : ∀ item ∈ items, '\n' ∉ line item) :
    lines ((items.flatMap fun item => line item ++ ['\n']) ++ rest) =
      items.map line ++ lines rest := by
  induction items with
  | nil => simp
  | cons item items ih =>
      have tail := ih fun other inside => single other (by simp [inside])
      simp only [List.flatMap_cons, List.append_assoc, List.map_cons, List.cons_append,
        List.nil_append] at tail ⊢
      rw [lines_append_cons (single item (by simp)), tail]

/-- `getline` reads up to the separator, which is dropped; once the stream has ended it keeps the
old text. -/
def getline (separator : Char) (old : Text) : Option Text → Text × Option Text
  | none => (old, none)
  | some rest =>
      if separator ∈ rest then
        (rest.takeWhile (· ≠ separator), some ((rest.dropWhile (· ≠ separator)).drop 1))
      else (rest, none)

/-- Several calls of `getline` read through one variable. -/
def getlines (separator : Char) : ℕ → Text → Option Text → List Text
  | 0, _, _ => []
  | count + 1, old, stream =>
      let next := getline separator old stream
      next.1 :: getlines separator count next.1 next.2

@[simp] theorem getlines_length (separator : Char) (count : ℕ) (old : Text)
    (stream : Option Text) : (getlines separator count old stream).length = count := by
  induction count generalizing old stream with
  | zero => rfl
  | succ count ih => rw [getlines, List.length_cons, ih]

/-- The first separator cuts the text into the part before it and the part after it. -/
theorem takeWhile_append_drop {separator : Char} {text : Text} (present : separator ∈ text) :
    text.takeWhile (· ≠ separator) ++
      separator :: (text.dropWhile (· ≠ separator)).drop 1 = text := by
  induction text with
  | nil => simp at present
  | cons c text ih =>
      by_cases same : c = separator
      · simp [same]
      · have later : separator ∈ text := by simpa [Ne.symm same] using present
        simpa [same] using ih later

/-- The calls of `getline` read the parts between the separators one after another. -/
theorem getlines_splitOn {separator : Char} (old : Text) {text field : Text} {count i : ℕ}
    (inside : i < count) (present : (text.splitOn separator)[i]? = some field) :
    (getlines separator count old (some text))[i]? = some field := by
  induction count generalizing text old i with
  | zero => omega
  | succ count ih =>
      by_cases listed : separator ∈ text
      · have clean : separator ∉ text.takeWhile (· ≠ separator) := fun letter => by
          simpa using List.mem_takeWhile_imp letter
        rw [← takeWhile_append_drop listed,
          List.splitOn_append_cons_self_of_not_mem clean] at present
        cases i with
        | zero => simpa [getlines, getline, listed] using present
        | succ i => simpa [getlines, getline, listed] using ih _ (by omega) (by simpa using present)
      · rw [List.splitOn_eq_singleton listed] at present
        obtain rfl : i = 0 := by
          have := (List.getElem?_eq_some_iff.mp present).1
          simpa using this
        simpa [getlines, getline, listed] using present

/-- This is the decimal numeral that `<<` writes for a number. -/
def decimal (n : ℕ) : Text := Nat.toDigits 10 n

theorem decimal_isDigit {n : ℕ} {c : Char} (inside : c ∈ decimal n) : c.isDigit :=
  Nat.isDigit_of_mem_toDigits (by decide) (by decide) inside

theorem isSpace_of_isDigit {c : Char} (digit : c.isDigit) : isSpace c = false := by
  by_contra space
  have listed : c ∈ [' ', '\t', '\n', '\x0b', '\x0c', '\r'] :=
    List.contains_iff_mem.mp (Bool.eq_true_of_not_eq_false space)
  fin_cases listed <;> exact absurd digit (by decide)

theorem decimal_isWord (n : ℕ) : IsWord (decimal n) :=
  ⟨Nat.toDigits_ne_nil, fun _ inside => isSpace_of_isDigit (decimal_isDigit inside)⟩

theorem decimal_injective : Function.Injective decimal := by
  intro first second same
  have values := congrArg (fun digits => Nat.ofDigitChars 10 digits 0) same
  simpa only [decimal, Nat.ofDigitChars_ten_toDigits] using values

/-- A character that is no digit ends a numeral. -/
theorem decimal_append_inj {i j : ℕ} {c d : Char} {first second : Text} (noDigit : ¬ c.isDigit)
    (otherNoDigit : ¬ d.isDigit) (same : decimal i ++ c :: first = decimal j ++ d :: second) :
    i = j ∧ c :: first = d :: second := by
  have taken (k : ℕ) {e : Char} (rest : Text) (end_ : ¬ e.isDigit) :
      (decimal k ++ e :: rest).takeWhile Char.isDigit = decimal k := by
    rw [List.takeWhile_append_of_pos fun digit inside => decimal_isDigit inside,
      List.takeWhile_cons_of_neg end_, List.append_nil]
  have numerals := congrArg (List.takeWhile Char.isDigit) same
  rw [taken i first noDigit, taken j second otherNoDigit] at numerals
  obtain rfl := decimal_injective numerals
  exact ⟨rfl, List.append_cancel_left same⟩

/-- The successive words of an input stream; an exhausted stream stays exhausted. -/
abbrev Stream := List Text

/-- `stream >> word` keeps the old value once the stream is exhausted. -/
def extract (old : Text) : Stream → Text × Stream
  | [] => (old, [])
  | word :: rest => (word, rest)

/-- `stream >> number` reads the longest prefix of digits; a word without one stops the stream.
Signs are not modelled: the program writes and reads counts only. -/
def extractNat (old : ℕ) : Stream → ℕ × Stream
  | [] => (old, [])
  | word :: rest =>
      let digits := word.takeWhile Char.isDigit
      if digits = [] then (0, [])
      else if digits = word then (Nat.ofDigitChars 10 digits 0, rest)
      else (Nat.ofDigitChars 10 digits 0, word.dropWhile Char.isDigit :: rest)

/-- A written number is read back. -/
@[simp] theorem extractNat_decimal (old n : ℕ) (rest : Stream) :
    extractNat old (decimal n :: rest) = (n, rest) := by
  have digits : (decimal n).takeWhile Char.isDigit = decimal n :=
    List.takeWhile_eq_self_iff.mpr fun c inside => decimal_isDigit inside
  simp only [extractNat, digits, if_neg (decimal_isWord n).nonempty, if_true]
  rw [decimal, Nat.ofDigitChars_ten_toDigits]

/-- This loop reads several words through one variable. -/
def extractMany (old : Text) : ℕ → Stream → List Text × Stream
  | 0, stream => ([], stream)
  | count + 1, stream =>
      let next := extract old stream
      let after := extractMany next.1 count next.2
      (next.1 :: after.1, after.2)

/-- This loop reads several words into fresh empty variables. -/
def extractFresh : ℕ → Stream → List Text × Stream
  | 0, stream => ([], stream)
  | count + 1, stream =>
      let next := extract [] stream
      let after := extractFresh count next.2
      (next.1 :: after.1, after.2)

/-- A stream that starts with the words gives exactly these words. -/
theorem extractMany_append (old : Text) (ws : List Text) (rest : Stream) :
    extractMany old ws.length (ws ++ rest) = (ws, rest) := by
  induction ws generalizing old with
  | nil => rfl
  | cons w ws ih => simp [extractMany, extract, ih]

theorem extractFresh_append (ws : List Text) (rest : Stream) :
    extractFresh ws.length (ws ++ rest) = (ws, rest) := by
  induction ws with
  | nil => rfl
  | cons w ws ih => simp [extractFresh, extract, ih]

end Text

end LogicRegression
