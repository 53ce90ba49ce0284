import LogicRegression.Library.Blif

namespace LogicRegression.Blif

open Text

/-- The words behind a directive in the first line that starts with it. -/
def header (directive text : Text) : List Text :=
  ((((lines text).map words).find? fun line => line.head? = some directive).getD []).tail

/-- The rows of a table have the width of its inputs and one value. -/
structure Names.WellFormed (names : Names) : Prop where
  size : ∀ cube ∈ names.cubes, cube.1.length = names.inputs.length
  plane : ∀ cube ∈ names.cubes, ∀ c ∈ cube.1, c = '-' ∨ c = '0' ∨ c = '1'
  value : (∀ cube ∈ names.cubes, cube.2 = ['1']) ∨ ∀ cube ∈ names.cubes, cube.2 = ['0']

/-- A text describes a model: it has one table for each output, over the inputs. -/
structure IsModel (text name : Text) (inputs outputs : List Text) : Prop where
  modelLine : header (lit ".model") text = [name]
  inputLine : header (lit ".inputs") text = inputs
  outputLine : header (lit ".outputs") text = outputs
  tables : (readNames text).map Names.output = outputs
  support : ∀ names ∈ readNames text, names.inputs ⊆ inputs
  wellFormed : ∀ names ∈ readNames text, names.WellFormed

/-- The outputs of a model have the values of a function of its inputs. -/
structure Describes (text name : Text) (inputs outputs : List Text) {n m : ℕ}
    (f : (Fin n → Bool) → Fin m → Bool) : Prop where
  model : IsModel text name inputs outputs
  values : ∀ (assignment : Text → Bool) (x : Fin n → Bool), inputs.map assignment = List.ofFn x →
    outputs.map (value text assignment) = List.ofFn (f x)

section Header

variable {directive : Text}

/-- A line that starts with the directive is the one that is read. -/
theorem header_spaced {ws : List Text} (all : ∀ w ∈ directive :: ws, IsWord w) (rest : Text) :
    header directive (spaced (directive :: ws) ++ '\n' :: rest) = ws := by
  rw [header, lines_append_cons (newline_notMem_spaced all), List.map_cons, words_spaced all,
    List.find?_cons_of_pos (by simp)]
  rfl

/-- A line that starts with another word is passed over. -/
theorem header_skip {w : Text} {ws : List Text} (all : ∀ v ∈ w :: ws, IsWord v)
    (other : w ≠ directive) (rest : Text) :
    header directive (spaced (w :: ws) ++ '\n' :: rest) = header directive rest := by
  rw [header, lines_append_cons (newline_notMem_spaced all), List.map_cons, words_spaced all,
    List.find?_cons_of_neg (by simpa using other)]
  rfl

end Header

section Tables

theorem takeWhile_append_stop {A : Type} {p : A → Bool} {rest : List A}
    (stop : rest.head?.all fun a => !p a) (first : List A) :
    (first ++ rest).takeWhile p = first.takeWhile p := by
  induction first with
  | nil =>
      cases rest with
      | nil => rfl
      | cons a rest =>
          have ends : (!p a) = true := stop
          exact List.takeWhile_cons_of_neg (by simpa using ends)
  | cons a first ih =>
      rw [List.cons_append, List.takeWhile_cons, List.takeWhile_cons, ih]

/-- Tables that are followed by a directive are read on their own. -/
theorem blocks_append {rest : List (List Text)} (stop : rest.head?.all isDirective)
    (first : List (List Text)) : blocks (first ++ rest) = blocks first ++ blocks rest := by
  have ends : rest.head?.all fun row => !!isDirective row := by simpa using stop
  induction first with
  | nil => rfl
  | cons line first ih =>
      rw [List.cons_append, blocks, blocks, ih, takeWhile_append_stop ends]
      split <;> rfl

theorem readNames_append {first rest : Text} (ended : ∃ body, first = body ++ ['\n'])
    (stop : ((lines rest).map words).head?.all isDirective) :
    readNames (first ++ rest) = readNames first ++ readNames rest := by
  obtain ⟨body, rfl⟩ := ended
  rw [readNames, List.append_assoc, List.singleton_append, lines_append, List.map_append,
    blocks_append stop]
  rfl

/-- A text starts with a directive. -/
def Starts (text : Text) : Prop := ((lines text).map words).head?.all isDirective

theorem starts_spaced {w : Text} {ws : List Text} (all : ∀ v ∈ w :: ws, IsWord v)
    (dot : w.head? = some '.') (rest : Text) : Starts (spaced (w :: ws) ++ '\n' :: rest) := by
  obtain ⟨c, tail, same⟩ := List.exists_cons_of_ne_nil (all w List.mem_cons_self).nonempty
  have first : isDirective (w :: ws) = true := by
    rw [same] at dot ⊢
    exact decide_eq_true (Option.some.inj dot)
  rw [Starts, lines_append_cons (newline_notMem_spaced all), List.map_cons, words_spaced all]
  exact first

/-- A text of blocks has the tables of each block. -/
theorem readNames_flatMap {A : Type} {items : List A} {block : A → Text} {rest : Text}
    (ended : ∀ item ∈ items, ∃ body, block item = body ++ ['\n'])
    (starts : ∀ item ∈ items, ∀ more, Starts (block item ++ more)) (stop : Starts rest) :
    readNames (items.flatMap block ++ rest) =
      (items.flatMap fun item => readNames (block item)) ++ readNames rest := by
  induction items with
  | nil => rfl
  | cons item items ih =>
      have later := ih (fun other inside => ended other (List.mem_cons_of_mem item inside))
        fun other inside => starts other (List.mem_cons_of_mem item inside)
      have next : Starts (items.flatMap block ++ rest) := by
        cases items with
        | nil => exact stop
        | cons other items =>
            rw [List.flatMap_cons, List.append_assoc]
            exact starts other (by simp) _
      rw [List.flatMap_cons, List.append_assoc,
        readNames_append (ended item List.mem_cons_self) next, later, List.flatMap_cons,
        List.append_assoc]

/-- An item is found by its key when the keys differ. -/
theorem find_key {A K : Type} [DecidableEq K] {key : A → K} {items : List A}
    (distinct : (items.map key).Nodup) {item : A} (listed : item ∈ items) :
    items.find? (fun other => key other = key item) = some item := by
  induction items with
  | nil => cases listed
  | cons first items ih =>
      rw [List.map_cons, List.nodup_cons] at distinct
      rcases List.mem_cons.mp listed with rfl | later
      · exact List.find?_cons_of_pos (by simp)
      · have apart : key first ≠ key item := fun same =>
          distinct.1 (same ▸ List.mem_map_of_mem later)
        rw [List.find?_cons_of_neg (by simpa using apart)]
        exact ih distinct.2 later

/-- A net has the value of its own table when the outputs of the tables differ. -/
theorem value_eq {text : Text} (distinct : ((readNames text).map Names.output).Nodup) {names : Names}
    (listed : names ∈ readNames text) (assignment : Text → Bool) :
    value text assignment names.output = names.eval assignment := by
  rw [value, find_key distinct listed]

end Tables

end LogicRegression.Blif
