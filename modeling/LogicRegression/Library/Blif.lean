import LogicRegression.Library.Binary
import LogicRegression.Library.Cube

namespace LogicRegression.Blif

open Text

/-- A `.names` table has its input signals, its output signal and its rows of plane and value. -/
structure Names where
  inputs : List Text
  output : Text
  cubes : List (Text × Text)
  deriving DecidableEq

/-- A row applies when its plane covers the values of the inputs. -/
def Names.applies (names : Names) (value : Text → Bool) (cube : Text × Text) : Bool :=
  decide (Cube.Covers '-' cube.1 (names.inputs.map fun input => Binary.bitChar (value input)))

/-- A table of value `1` is the disjunction of its rows, a table of value `0` the complement.
The empty table is constant zero. -/
def Names.eval (names : Names) (value : Text → Bool) : Bool :=
  match names.cubes with
  | (_, ['0']) :: _ => !names.cubes.any (names.applies value)
  | _ => names.cubes.any (names.applies value)

theorem Names.eval_onset {names : Names} (onset : ∀ cube ∈ names.cubes, cube.2 = ['1'])
    (value : Text → Bool) : names.eval value = names.cubes.any (names.applies value) := by
  unfold eval
  split
  · next plane rest same =>
      have one := onset (plane, ['0']) (by rw [same]; simp)
      exact absurd one (show ['0'] ≠ ['1'] by decide)
  · rfl

theorem Names.eval_offset {names : Names} (offset : ∀ cube ∈ names.cubes, cube.2 = ['0'])
    (nonempty : names.cubes ≠ []) (value : Text → Bool) :
    names.eval value = !names.cubes.any (names.applies value) := by
  obtain ⟨⟨plane, bit⟩, rest, same⟩ := List.exists_cons_of_ne_nil nonempty
  obtain rfl : bit = ['0'] := offset (plane, bit) (by rw [same]; simp)
  simp only [eval, same]

/-- A directive starts with a dot. -/
def isDirective : List Text → Bool
  | (c :: _) :: _ => c = '.'
  | _ => false

theorem isDirective_names (signals : List Text) : isDirective (lit ".names" :: signals) = true := rfl

/-- A row without inputs has its value only. -/
def cubeOf : List Text → Text × Text
  | [value] => ([], value)
  | plane :: value :: _ => (plane, value)
  | [] => ([], [])

/-- Each `.names` line takes the rows up to the next directive. -/
def blocks : List (List Text) → List Names
  | [] => []
  | line :: rest =>
      if line.head? = some (lit ".names") then
        ⟨line.tail.dropLast, line.getLastD [], (rest.takeWhile fun row => !isDirective row).map cubeOf⟩
          :: blocks rest
      else blocks rest

/-- This reads the tables of a BLIF text. -/
def readNames (text : Text) : List Names := blocks ((lines text).map words)

/-- The value of a net that a text defines by one table over the inputs. -/
def value (text : Text) (inputs : Text → Bool) (net : Text) : Bool :=
  match (readNames text).find? fun names => names.output = net with
  | some names => names.eval inputs
  | none => false

/-- A row is not the start of a table. -/
theorem blocks_rows (rows rest : List (List Text))
    (plain : ∀ row ∈ rows, isDirective row = false) : blocks (rows ++ rest) = blocks rest := by
  induction rows with
  | nil => rfl
  | cons row rows ih =>
      have notNames : row.head? ≠ some (lit ".names") := by
        intro start
        have rowPlain := plain row (by simp)
        cases row with
        | nil => simp at start
        | cons word more =>
            rw [List.head?_cons, Option.some.injEq] at start
            subst start
            rw [isDirective_names] at rowPlain
            exact absurd rowPlain (by decide)
      rw [List.cons_append, blocks, if_neg notNames]
      exact ih fun other inside => plain other (by simp [inside])

/-- A written table is read back with its rows. -/
theorem blocks_names (signals : List Text) (output : Text) (rows rest : List (List Text))
    (plain : ∀ row ∈ rows, isDirective row = false) (stop : rest.head?.all isDirective) :
    blocks ((lit ".names" :: signals ++ [output]) :: (rows ++ rest)) =
      ⟨signals, output, rows.map cubeOf⟩ :: blocks rest := by
  have taken : (rows ++ rest).takeWhile (fun row => !isDirective row) = rows := by
    rw [List.takeWhile_append_of_pos fun row inside => by simp [plain row inside]]
    cases rest with
    | nil => simp
    | cons head tail =>
        have directive : isDirective head = true := by simpa using stop
        simp [directive]
  rw [blocks, if_pos (by simp), taken, blocks_rows rows rest plain, List.getLastD_concat]
  simp

/-- A line that does not start a table is skipped. -/
theorem readNames_skip {line : Text} (single : '\n' ∉ line)
    (other : (words line).head? ≠ some (lit ".names")) (rest : Text) :
    readNames (line ++ '\n' :: rest) = readNames rest := by
  rw [readNames, lines_append_cons single, List.map_cons, blocks, if_neg other]
  rfl

/-- A line of other words is skipped. -/
theorem readNames_skip_spaced {w : Text} {ws : List Text} (all : ∀ v ∈ w :: ws, IsWord v)
    (other : w ≠ lit ".names") (rest : Text) :
    readNames (spaced (w :: ws) ++ '\n' :: rest) = readNames rest := by
  apply readNames_skip (newline_notMem_spaced all)
  rw [words_spaced all]
  intro same
  exact other (Option.some.inj same)

/-- A row of a table without inputs has its value only. -/
theorem cubeOf_row {cube : Text} {value : Char} (solid : isSpace value = false)
    (cubeSolid : ∀ c ∈ cube, isSpace c = false) :
    cubeOf (words (cube ++ [' ', value])) = (cube, [value]) := by
  have valueWord : IsWord [value] := ⟨by simp, fun c inside => by
    rw [List.mem_singleton.mp inside]
    exact solid⟩
  rw [words_append_cons _ _ (by decide), words_word valueWord]
  cases cube with
  | nil => rfl
  | cons c cube =>
      rw [words_word ⟨by simp, cubeSolid⟩]
      rfl

theorem isDirective_row {cube : Text} {value : Char} (solid : isSpace value = false)
    (cubeSolid : ∀ c ∈ cube, isSpace c = false) (plain : '.' ∉ cube) (noDot : value ≠ '.') :
    isDirective (words (cube ++ [' ', value])) = false := by
  have valueWord : IsWord [value] := ⟨by simp, fun c inside => by
    rw [List.mem_singleton.mp inside]
    exact solid⟩
  rw [words_append_cons _ _ (by decide), words_word valueWord]
  cases cube with
  | nil => exact decide_eq_false noDot
  | cons c cube =>
      rw [words_word ⟨by simp, cubeSolid⟩]
      exact decide_eq_false fun dot => plain (dot ▸ List.mem_cons_self)

/-- A written table whose rows have one value is read back. -/
theorem readNames_table {signals cubes : List Text} {output : Text} {value : Char}
    (signalWords : ∀ name ∈ signals, IsWord name) (outputWord : IsWord output)
    (solid : isSpace value = false) (noDot : value ≠ '.')
    (cubeSolid : ∀ cube ∈ cubes, ∀ c ∈ cube, isSpace c = false) (plain : ∀ cube ∈ cubes, '.' ∉ cube)
    {rest : Text} (stop : ((lines rest).map words).head?.all isDirective) :
    readNames (spaced (lit ".names" :: (signals ++ [output])) ++ '\n' ::
      ((cubes.flatMap fun cube => cube ++ [' ', value] ++ ['\n']) ++ rest)) =
        ⟨signals, output, cubes.map fun cube => (cube, [value])⟩ :: readNames rest := by
  have header : ∀ w ∈ lit ".names" :: (signals ++ [output]), IsWord w := by
    intro w inside
    rcases List.mem_cons.mp inside with rfl | listed
    · exact ⟨by decide, by decide⟩
    · rcases List.mem_append.mp listed with signal | last
      · exact signalWords w signal
      · rw [List.mem_singleton.mp last]
        exact outputWord
  have single : ∀ cube ∈ cubes, '\n' ∉ cube ++ [' ', value] := by
    intro cube inside listed
    rcases List.mem_append.mp listed with own | added
    · exact absurd (cubeSolid cube inside '\n' own) (by decide)
    · rcases List.mem_cons.mp added with blank | last
      · exact absurd blank (by decide)
      · rw [← List.mem_singleton.mp last] at solid
        exact absurd solid (by decide)
  have rows : ((cubes.map fun cube => cube ++ [' ', value]).map words).map cubeOf =
      cubes.map fun cube => (cube, [value]) := by
    rw [List.map_map, List.map_map]
    apply List.map_congr_left
    intro cube inside
    exact cubeOf_row solid (cubeSolid cube inside)
  have table := blocks_names signals output ((cubes.map fun cube => cube ++ [' ', value]).map words)
    ((lines rest).map words) (fun line inside => by
      obtain ⟨text, listed, rfl⟩ := List.mem_map.mp inside
      obtain ⟨cube, present, rfl⟩ := List.mem_map.mp listed
      exact isDirective_row solid (cubeSolid cube present) (plain cube present) noDot) stop
  rw [rows] at table
  rw [readNames, lines_append_cons (newline_notMem_spaced header),
    lines_flatMap (fun cube => cube ++ [' ', value]) cubes rest single, List.map_cons,
    List.map_append, words_spaced header]
  exact table

section Drivers

/-- The lines that start a table, with the directive as their first word. -/
def namesLines (text : Text) : List (List Text) :=
  ((lines text).map words).filter fun line => line.head? = some (lit ".names")

/-- Each net is the last signal of one `.names` line, and each such line has a signal. -/
structure Driven (nets : List Text) (text : Text) : Prop where
  once : ∀ net ∈ nets, (namesLines text).countP (fun line => line.tail.getLast? = some net) = 1
  signals : ∀ line ∈ namesLines text, line.tail ≠ []

@[simp] theorem namesLines_nil : namesLines [] = [] := rfl

theorem namesLines_append (first rest : Text) :
    namesLines (first ++ '\n' :: rest) = namesLines (first ++ ['\n']) ++ namesLines rest := by
  rw [namesLines, lines_append, List.map_append, List.filter_append]
  rfl

/-- A line of words starts a table when its first word is the directive. -/
theorem namesLines_spaced {ws : List Text} (all : ∀ w ∈ ws, IsWord w) (rest : Text) :
    namesLines (spaced ws ++ '\n' :: rest) =
      (if ws.head? = some (lit ".names") then [ws] else []) ++ namesLines rest := by
  rw [namesLines, lines_append_cons (newline_notMem_spaced all), List.map_cons, words_spaced all,
    List.filter_cons]
  split <;> simp_all [namesLines]

/-- A line that does not start with the directive is dropped. -/
theorem namesLines_skip {line : Text} (single : '\n' ∉ line)
    (other : (words line).head? ≠ some (lit ".names")) (rest : Text) :
    namesLines (line ++ '\n' :: rest) = namesLines rest := by
  rw [namesLines, lines_append_cons single, List.map_cons, List.filter_cons_of_neg (by simpa)]
  rfl

/-- The rows of a table do not start tables. -/
theorem namesLines_rows {cubes : List Text} {value : Char} (solid : isSpace value = false)
    (noDot : value ≠ '.')
    (plain : ∀ cube ∈ cubes, ∀ c ∈ cube, isSpace c = false ∧ c ≠ '.') (rest : Text) :
    namesLines ((cubes.flatMap fun cube => cube ++ [' ', value] ++ ['\n']) ++ rest) =
      namesLines rest := by
  induction cubes with
  | nil => rfl
  | cons cube cubes ih =>
      have row := plain cube List.mem_cons_self
      have single : '\n' ∉ cube ++ [' ', value] := by
        intro inside
        cases List.mem_append.mp inside with
        | inl own => exact absurd (row '\n' own).1 (by decide)
        | inr added =>
            have last : '\n' = value := by simpa using added
            exact absurd (last ▸ solid) (by decide)
      have other : (words (cube ++ [' ', value])).head? ≠ some (lit ".names") := by
        intro start
        have directive := isDirective_row solid (fun c inside => (row c inside).1)
          (fun dot => (row '.' dot).2 rfl) noDot
        obtain ⟨signals, same⟩ := List.head?_eq_some_iff.mp start
        rw [same, isDirective_names] at directive
        exact absurd directive (by decide)
      rw [List.flatMap_cons, List.append_assoc, List.append_assoc, List.singleton_append,
        namesLines_skip single other]
      exact ih fun other inside => plain other (List.mem_cons_of_mem cube inside)

end Drivers

end LogicRegression.Blif
