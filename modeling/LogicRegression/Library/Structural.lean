import LogicRegression.Library.Text

namespace LogicRegression.Structural

open Text

/-- An instance names its cell or its module; its pins are in the order of the ports. -/
structure Cell where
  name : Text
  pins : List Text
  deriving DecidableEq

/-- A module of a structural netlist. -/
structure ModuleDecl where
  name : Text
  ports : List Text
  inputs : List Text
  outputs : List Text
  wires : List Text
  cells : List Cell
  deriving DecidableEq

section Tokens

/-- Brackets, commas and semicolons are tokens of their own. -/
def isMark (c : Char) : Bool := ['(', ')', ',', ';'].contains c

def padded (c : Char) : Text := if isMark c then [' ', c, ' '] else [c]

/-- The tokens of a text. -/
def tokens (text : Text) : List Text := words (text.flatMap padded)

@[simp] theorem tokens_nil : tokens [] = [] := words_nil

theorem isMark_of_isSpace {s : Char} (space : isSpace s) : isMark s = false := by
  have listed : s ∈ [' ', '\t', '\n', '\x0b', '\x0c', '\r'] := List.contains_iff_mem.mp space
  fin_cases listed <;> decide

/-- A space separates the tokens before it from the tokens after it. -/
theorem tokens_append_cons (first rest : Text) {s : Char} (space : isSpace s) :
    tokens (first ++ s :: rest) = tokens first ++ tokens rest := by
  have alone : padded s = [s] := by simp [padded, isMark_of_isSpace space]
  rw [tokens, List.flatMap_append, List.flatMap_cons, alone]
  exact words_append_cons _ _ space

/-- A mark is a token between the tokens before it and the tokens after it. -/
theorem tokens_append_mark (first rest : Text) {c : Char} (mark : isMark c) :
    tokens (first ++ c :: rest) = tokens first ++ [c] :: tokens rest := by
  have spaced : padded c = [' ', c, ' '] := by simp [padded, mark]
  have solid : isSpace c = false := by
    by_contra space
    have noMark := isMark_of_isSpace (Bool.eq_true_of_not_eq_false space)
    exact absurd (mark.symm.trans noMark) (by decide)
  have single : words [c] = [[c]] := words_word ⟨by simp, by simpa using solid⟩
  rw [tokens, List.flatMap_append, List.flatMap_cons, spaced]
  change words (first.flatMap padded ++ ' ' :: ([c] ++ ' ' :: rest.flatMap padded)) = _
  rw [words_append_cons _ _ (by decide), words_append_cons _ _ (by decide), single]
  rfl

theorem tokens_space (rest : Text) {s : Char} (space : isSpace s) :
    tokens (s :: rest) = tokens rest := by
  simpa using tokens_append_cons [] rest space

theorem tokens_mark (rest : Text) {c : Char} (mark : isMark c) :
    tokens (c :: rest) = [c] :: tokens rest := by
  simpa using tokens_append_mark [] rest mark

/-- A name is one token, and it does not end a module. -/
structure IsName (name : Text) : Prop where
  word : IsWord name
  plain : ∀ c ∈ name, isMark c = false
  noEnd : name ≠ lit "endmodule"

theorem isName_iff {name : Text} :
    IsName name ↔ (name ≠ [] ∧ ∀ c ∈ name, isSpace c = false ∧ isMark c = false) ∧
      name ≠ lit "endmodule" :=
  ⟨fun isName => ⟨⟨isName.word.nonempty, fun c inside => ⟨isName.word.solid c inside,
    isName.plain c inside⟩⟩, isName.noEnd⟩, fun all => ⟨⟨all.1.1, fun c inside =>
      (all.1.2 c inside).1⟩, fun c inside => (all.1.2 c inside).2, all.2⟩⟩

instance (name : Text) : Decidable (IsName name) := decidable_of_iff' _ isName_iff

/-- A word without marks is one token. -/
theorem tokens_word {w : Text} (word : IsWord w) (unmarked : ∀ c ∈ w, isMark c = false) :
    tokens w = [w] := by
  have same : w.flatMap padded = w := by
    have alone : ∀ c ∈ w, padded c = [c] := fun c inside => by simp [padded, unmarked c inside]
    rw [List.flatMap_congr alone]
    exact List.flatMap_singleton' w
  rw [tokens, same, words_word word]

theorem IsName.tokens {name : Text} (isName : IsName name) : tokens name = [name] :=
  tokens_word isName.word isName.plain

/-- A space, a mark or the end of the text ends a token before it. -/
def Stops (rest : Text) : Prop := ∀ c ∈ rest.head?, isSpace c ∨ isMark c

theorem stops_cons {c : Char} (rest : Text) (stop : isSpace c ∨ isMark c) : Stops (c :: rest) := by
  intro d first
  rw [List.head?_cons, Option.mem_def, Option.some.injEq] at first
  rwa [← first]

theorem tokens_append_stops (first : Text) {rest : Text} (stops : Stops rest) :
    tokens (first ++ rest) = tokens first ++ tokens rest := by
  cases rest with
  | nil => simp
  | cons c rest =>
      rcases stops c rfl with space | mark
      · rw [tokens_append_cons first rest space, tokens_space rest space]
      · rw [tokens_append_mark first rest mark, tokens_mark rest mark]

theorem IsName.tokens_append {name : Text} (isName : IsName name) {rest : Text}
    (stops : Stops rest) : Structural.tokens (name ++ rest) = name :: Structural.tokens rest := by
  rw [tokens_append_stops name stops, isName.tokens]
  rfl

theorem tokens_spaces {gap : Text} (blank : ∀ c ∈ gap, isSpace c) (rest : Text) :
    tokens (gap ++ rest) = tokens rest := by
  induction gap with
  | nil => rfl
  | cons c gap ih =>
      rw [List.cons_append, tokens_space _ (blank c List.mem_cons_self)]
      exact ih fun d inside => blank d (List.mem_cons_of_mem c inside)

/-- The last character of a text is a space, as in a text that is written line by line. -/
def Ended (text : Text) : Prop := ∀ c ∈ text.getLast?, isSpace c

theorem ended_append {first second : Text} (one : Ended first) (two : Ended second) :
    Ended (first ++ second) := by
  cases second with
  | nil => rwa [List.append_nil]
  | cons c second =>
      rw [Ended, List.getLast?_append_of_ne_nil _ (List.cons_ne_nil c second)]
      exact two

theorem ended_flatMap {A : Type} {text : A → Text} {items : List A}
    (ended : ∀ item ∈ items, Ended (text item)) : Ended (items.flatMap text) := by
  induction items with
  | nil => exact fun _ last => nomatch last
  | cons item items ih =>
      exact ended_append (ended item List.mem_cons_self)
        (ih fun other inside => ended other (List.mem_cons_of_mem item inside))

theorem tokens_append_ended {first : Text} (ended : Ended first) (rest : Text) :
    tokens (first ++ rest) = tokens first ++ tokens rest := by
  rcases List.eq_nil_or_concat first with rfl | ⟨start, c, rfl⟩
  · rfl
  · have space : isSpace c := ended c (by simp)
    have last := tokens_append_cons start [] space
    rw [tokens_nil, List.append_nil] at last
    rw [List.concat_eq_append, List.append_assoc, List.singleton_append,
      tokens_append_cons start rest space, last]

end Tokens

section Statements

inductive Statement where
  | module (name : Text) (ports : List Text)
  | input (names : List Text)
  | output (names : List Text)
  | wire (names : List Text)
  | cell (cell : Cell)
  | endmodule
  | malformed
  deriving DecidableEq

/-- No mark stands for a name. -/
def unmarked (token : Text) : Bool := token.all fun c => !isMark c

/-- The names of a list that are separated by commas. -/
def names : List Text → Option (List Text)
  | [] => some []
  | [name] => if unmarked name then some [name] else none
  | [_, _] => none
  | name :: comma :: next :: rest =>
      if unmarked name ∧ comma = [','] then (names (next :: rest)).map (name :: ·) else none

/-- A list in round brackets. -/
def bracketed : List Text → Option (List Text)
  | [] => none
  | first :: rest =>
      if first = ['('] ∧ rest.getLast? = some [')'] then names rest.dropLast else none

/-- A declaration of some names. -/
def declared (kind : List Text → Statement) (tokens : List Text) : Statement :=
  ((names tokens).map kind).getD .malformed

/-- The tokens up to a semicolon or the word `endmodule` are one statement. -/
def statementOf : List Text → Statement
  | [] => .malformed
  | word :: rest =>
      if word = lit "endmodule" then if rest = [] then .endmodule else .malformed
      else if word = lit "module" then
        ((bracketed rest.tail).map (.module (rest.headD []))).getD .malformed
      else if word = lit "input" then declared .input rest
      else if word = lit "output" then declared .output rest
      else if word = lit "wire" then declared .wire rest
      else ((bracketed rest).map fun pins => .cell ⟨word, pins⟩).getD .malformed

/-- Tokens that no semicolon ends are no statement. -/
def pieces : List Text → List Text → List (List Text)
  | before, [] => if before = [] then [] else [[]]
  | before, token :: rest =>
      if token = [';'] then before :: pieces [] rest
      else if token = lit "endmodule" then (before ++ [token]) :: pieces [] rest
      else pieces (before ++ [token]) rest

def statements (text : Text) : List Statement := (pieces [] (tokens text)).map statementOf

/-- The statements between a header and the next `endmodule` make up one module. -/
def assemble : Option ModuleDecl → List Statement → Option (List ModuleDecl)
  | none, [] => some []
  | none, .module name ports :: rest => assemble (some ⟨name, ports, [], [], [], []⟩) rest
  | none, _ :: _ => none
  | some _, [] => none
  | some m, .input names :: rest => assemble (some { m with inputs := m.inputs ++ names }) rest
  | some m, .output names :: rest => assemble (some { m with outputs := m.outputs ++ names }) rest
  | some m, .wire names :: rest => assemble (some { m with wires := m.wires ++ names }) rest
  | some m, .cell cell :: rest => assemble (some { m with cells := m.cells ++ [cell] }) rest
  | some m, .endmodule :: rest => (assemble none rest).map (m :: ·)
  | some _, _ :: _ => none

/-- The modules of a text. -/
def read (text : Text) : Option (List ModuleDecl) := assemble none (statements text)

end Statements

section Reading

/-- A list of names with commas between them is read back. -/
theorem names_intersperse {list : List Text} (plain : ∀ name ∈ list, unmarked name) :
    names (list.intersperse [',']) = some list := by
  induction list with
  | nil => rfl
  | cons name list ih =>
      have own := plain name List.mem_cons_self
      cases list with
      | nil => simp [names, own]
      | cons next list =>
          have later := ih fun other inside => plain other (List.mem_cons_of_mem name inside)
          obtain ⟨head, tail, same⟩ : ∃ head tail,
              (next :: list).intersperse [','] = head :: tail := by
            cases list <;> exact ⟨_, _, rfl⟩
          have split : (name :: next :: list).intersperse [','] =
              name :: [','] :: (next :: list).intersperse [','] := rfl
          rw [split, same, names, if_pos ⟨own, rfl⟩, ← same, later]
          rfl

theorem bracketed_names {list : List Text} (plain : ∀ name ∈ list, unmarked name) :
    bracketed (['('] :: (list.intersperse [','] ++ [[')']])) = some list := by
  rw [bracketed, if_pos (by simp), List.dropLast_concat]
  exact names_intersperse plain

theorem IsName.unmarked_eq {name : Text} (isName : IsName name) : unmarked name = true := by
  rw [unmarked, List.all_eq_true]
  intro c inside
  simp [isName.plain c inside]

/-- These words start declarations. -/
def keywords : List Text := [lit "module", lit "input", lit "output", lit "wire"]

theorem statementOf_cell {word : Text} {pins : List Text} (noEnd : word ≠ lit "endmodule")
    (noKeyword : word ∉ keywords) (plain : ∀ name ∈ pins, unmarked name) :
    statementOf (word :: ['('] :: (pins.intersperse [','] ++ [[')']])) = .cell ⟨word, pins⟩ := by
  simp only [keywords, List.mem_cons, List.not_mem_nil, or_false, not_or] at noKeyword
  obtain ⟨noModule, noInput, noOutput, noWire⟩ := noKeyword
  rw [statementOf, if_neg noEnd, if_neg noModule, if_neg noInput, if_neg noOutput, if_neg noWire,
    bracketed_names plain]
  rfl

theorem statementOf_module {name : Text} {ports : List Text} (plain : ∀ name ∈ ports, unmarked name) :
    statementOf (lit "module" :: name :: ['('] :: (ports.intersperse [','] ++ [[')']])) =
      .module name ports := by
  rw [statementOf, if_neg (by decide), if_pos rfl, List.tail_cons, bracketed_names plain]
  rfl

theorem declared_names {kind : List Text → Statement} {list : List Text}
    (plain : ∀ name ∈ list, unmarked name) : declared kind (list.intersperse [',']) = kind list := by
  rw [declared, names_intersperse plain]
  rfl

/-- These tokens stay inside one statement. -/
def Inner (tokens : List Text) : Prop := ∀ token ∈ tokens, token ≠ [';'] ∧ token ≠ lit "endmodule"

theorem IsName.inner {name : Text} (isName : IsName name) :
    name ≠ [';'] ∧ name ≠ lit "endmodule" := by
  refine ⟨fun same => ?_, isName.noEnd⟩
  have plain := isName.plain ';' (by rw [same]; exact List.mem_cons_self)
  exact absurd plain (by decide)

theorem Inner.append {first second : List Text} (one : Inner first) (two : Inner second) :
    Inner (first ++ second) := fun token inside =>
  (List.mem_append.mp inside).elim (one token) (two token)

theorem pieces_inner {inner : List Text} (stays : Inner inner) (before rest : List Text) :
    pieces before (inner ++ rest) = pieces (before ++ inner) rest := by
  induction inner generalizing before with
  | nil => simp
  | cons token inner ih =>
      have own := stays token List.mem_cons_self
      rw [List.cons_append, pieces, if_neg own.1, if_neg own.2,
        ih fun other inside => stays other (List.mem_cons_of_mem token inside)]
      simp

theorem unmarked_names {names : List Text} (all : ∀ name ∈ names, IsName name) :
    ∀ name ∈ names, unmarked name := fun name listed => (all name listed).unmarked_eq

theorem inner_names {names : List Text} (all : ∀ name ∈ names, IsName name) :
    Inner (names.intersperse [',']) := by
  induction names with
  | nil => exact fun _ listed => absurd listed List.not_mem_nil
  | cons name names ih =>
      have own := (all name List.mem_cons_self).inner
      have later := ih fun other inside => all other (List.mem_cons_of_mem name inside)
      cases names with
      | nil => exact List.forall_mem_cons.mpr ⟨own, fun _ listed => absurd listed List.not_mem_nil⟩
      | cons next names =>
          exact List.forall_mem_cons.mpr ⟨own, List.forall_mem_cons.mpr ⟨by decide, later⟩⟩

/-- A list in brackets stays inside one statement. -/
theorem inner_brackets {names : List Text} (all : ∀ name ∈ names, IsName name) :
    Inner (['('] :: (names.intersperse [','] ++ [[')']])) := by
  have last : Inner [[')']] := List.forall_mem_cons.mpr ⟨by decide, by simp⟩
  exact List.forall_mem_cons.mpr ⟨by decide, (inner_names all).append last⟩

/-- The tokens of a cell without its semicolon. -/
def cellTokens (cell : Cell) : List Text :=
  cell.name :: ['('] :: (cell.pins.intersperse [','] ++ [[')']])

/-- The names of a cell are single tokens, and it is no declaration. -/
structure IsCell (cell : Cell) : Prop where
  name : IsName cell.name
  noKeyword : cell.name ∉ keywords
  pins : ∀ pin ∈ cell.pins, IsName pin

theorem IsCell.inner {cell : Cell} (isCell : IsCell cell) : Inner (cellTokens cell) :=
  List.forall_mem_cons.mpr ⟨isCell.name.inner, inner_brackets isCell.pins⟩

theorem IsCell.statementOf {cell : Cell} (isCell : IsCell cell) :
    statementOf (cellTokens cell) = .cell cell :=
  statementOf_cell isCell.name.noEnd isCell.noKeyword (unmarked_names isCell.pins)

/-- A semicolon ends a statement. -/
theorem pieces_statement {inner : List Text} (stays : Inner inner) (rest : List Text) :
    pieces [] (inner ++ [';'] :: rest) = inner :: pieces [] rest := by
  rw [pieces_inner stays, pieces, if_pos rfl, List.nil_append]

/-- The statements of a list are those of its members. -/
theorem pieces_flatMap {list : List (List Text)} (stay : ∀ inner ∈ list, Inner inner)
    (rest : List Text) :
    pieces [] ((list.flatMap fun inner => inner ++ [[';']]) ++ rest) = list ++ pieces [] rest := by
  induction list with
  | nil => rfl
  | cons inner list ih =>
      have later := ih fun other inside => stay other (List.mem_cons_of_mem inner inside)
      rw [List.flatMap_cons, List.append_assoc, List.append_assoc, List.singleton_append,
        pieces_statement (stay inner List.mem_cons_self), later]
      rfl

/-- The tokens of some cells are read as these cells. -/
theorem statements_cells {cells : List Cell} (all : ∀ cell ∈ cells, IsCell cell)
    (rest : List Text) :
    (pieces [] ((cells.map cellTokens).flatMap (fun inner => inner ++ [[';']]) ++ rest)).map
      statementOf = cells.map .cell ++ (pieces [] rest).map statementOf := by
  have stay : ∀ inner ∈ cells.map cellTokens, Inner inner := by
    intro inner listed
    obtain ⟨cell, inside, rfl⟩ := List.mem_map.mp listed
    exact (all cell inside).inner
  have each : (cells.map cellTokens).map statementOf = cells.map .cell := by
    rw [List.map_map]
    exact List.map_congr_left fun cell listed => (all cell listed).statementOf
  rw [pieces_flatMap stay, List.map_append, each]

/-- Complete statements are followed by those of the rest. -/
theorem pieces_append {first : List Text} (rest : List Text) {before : List Text}
    (complete : [] ∉ pieces before first) :
    pieces before (first ++ rest) = pieces before first ++ pieces [] rest := by
  induction first generalizing before with
  | nil =>
      have empty : before = [] := by
        by_contra other
        exact complete (by rw [pieces, if_neg other]; exact List.mem_cons_self)
      rw [empty]
      rfl
  | cons token first ih =>
      rw [List.cons_append, pieces, pieces]
      rw [pieces] at complete
      split
      · next semicolon =>
          rw [if_pos semicolon] at complete
          rw [ih fun inside => complete (List.mem_cons_of_mem _ inside)]
          rfl
      · next other =>
          rw [if_neg other] at complete
          split
          · next last =>
              rw [if_pos last] at complete
              rw [ih fun inside => complete (List.mem_cons_of_mem _ inside)]
              rfl
          · next inner =>
              rw [if_neg inner] at complete
              exact ih complete

/-- The cells of a module follow one another. -/
theorem assemble_cells (cells : List Cell) (m : ModuleDecl) (rest : List Statement) :
    assemble (some m) (cells.map .cell ++ rest) =
      assemble (some { m with cells := m.cells ++ cells }) rest := by
  induction cells generalizing m with
  | nil => simp
  | cons cell cells ih => simp [assemble, ih]

/-- A text with a malformed statement has no modules. -/
theorem assemble_malformed {list : List Statement} (listed : .malformed ∈ list)
    (current : Option ModuleDecl) : assemble current list = none := by
  fun_induction assemble current list with
  | case1 => simp at listed
  | case2 name ports rest ih => exact ih (by simpa using listed)
  | case3 => rfl
  | case4 => rfl
  | case5 rest m names ih => exact ih (by simpa using listed)
  | case6 rest m names ih => exact ih (by simpa using listed)
  | case7 rest m names ih => exact ih (by simpa using listed)
  | case8 rest m cell ih => exact ih (by simpa using listed)
  | case9 rest m ih => rw [ih (by simpa using listed), Option.map_none]
  | case10 => rfl

/-- Complete modules are followed by those of the rest. -/
theorem assemble_append {first : List Statement} {modules : List ModuleDecl}
    {current : Option ModuleDecl} (complete : assemble current first = some modules)
    (rest : List Statement) :
    assemble current (first ++ rest) = (assemble none rest).map (modules ++ ·) := by
  fun_induction assemble current first generalizing modules with
  | case1 =>
      obtain rfl := Option.some.inj complete
      simp
  | case2 name ports rest ih => exact ih complete
  | case3 => cases complete
  | case4 => cases complete
  | case5 rest m names ih => exact ih complete
  | case6 rest m names ih => exact ih complete
  | case7 rest m names ih => exact ih complete
  | case8 rest m cell ih => exact ih complete
  | case9 later m ih =>
      obtain ⟨others, found, rfl⟩ := Option.map_eq_some_iff.mp complete
      rw [List.cons_append, assemble, ih found, Option.map_map]
      rfl
  | case10 => cases complete

/-- The modules of two files together are those of the first one and those of the second one. -/
theorem read_append {first : Text} {modules : List ModuleDecl} (complete : read first = some modules)
    (ended : Ended first) (rest : Text) :
    read (first ++ rest) = (read rest).map (modules ++ ·) := by
  have noEmpty : [] ∉ pieces [] (tokens first) := by
    intro listed
    have bad : Statement.malformed ∈ statements first := List.mem_map.mpr ⟨[], listed, rfl⟩
    rw [read, assemble_malformed bad] at complete
    cases complete
  have split : statements (first ++ rest) = statements first ++ statements rest := by
    rw [statements, tokens_append_ended ended rest, pieces_append _ noEmpty, List.map_append]
    rfl
  rw [read, split]
  exact assemble_append complete (statements rest)

/-- The modules of a file that is put together from other files. -/
theorem read_flatMap {A : Type} {text : A → Text} {modules : A → List ModuleDecl} {items : List A}
    (complete : ∀ item ∈ items, read (text item) = some (modules item))
    (ended : ∀ item ∈ items, Ended (text item)) :
    read (items.flatMap text) = some (items.flatMap modules) := by
  induction items with
  | nil => rfl
  | cons item items ih =>
      have later := ih (fun other inside => complete other (List.mem_cons_of_mem item inside))
        fun other inside => ended other (List.mem_cons_of_mem item inside)
      rw [List.flatMap_cons, read_append (complete item List.mem_cons_self)
        (ended item List.mem_cons_self), later]
      rfl

end Reading

section Meaning

/-- The pins of a cell are related by its function. -/
abbrev Library := Text → Option (List Bool → Prop)

/-- The two constants of one bit are no nets of their own. -/
structure Constants (value : Text → Bool) : Prop where
  zero : value (lit "1'b0") = false
  one : value (lit "1'b1") = true

/-- The pins of a cell or of a module of a file can have these values. -/
inductive Holds (library : Library) (file : List ModuleDecl) : Text → List Bool → Prop
  | cell {name : Text} {relation : List Bool → Prop} {pins : List Bool}
      (known : library name = some relation) (related : relation pins) : Holds library file name pins
  | module {m : ModuleDecl} {value : Text → Bool} (free : library m.name = none)
      (found : file.find? (fun other => other.name = m.name) = some m) (constants : Constants value)
      (inner : ∀ cell ∈ m.cells, Holds library file cell.name (cell.pins.map value)) :
      Holds library file m.name (m.ports.map value)

/-- A module computes a function: its pins are the arguments and then the results. -/
def Computes (library : Library) (file : List ModuleDecl) (name : Text) {n m : ℕ}
    (f : (Fin n → Bool) → Fin m → Bool) : Prop :=
  ∀ pins, Holds library file name pins ↔ ∃ x, pins = List.ofFn x ++ List.ofFn (f x)

variable {library : Library} {file : List ModuleDecl}

theorem holds_cell_iff {name : Text} {relation : List Bool → Prop}
    (known : library name = some relation) (pins : List Bool) :
    Holds library file name pins ↔ relation pins := by
  constructor
  · intro holds
    cases holds with
    | cell other related =>
        rw [known] at other
        cases other
        exact related
    | module free => exact absurd (known.symm.trans free) (by simp)
  · exact fun related => .cell known related

/-- The pins of a module are the values of its ports for some values of its nets. -/
theorem holds_module_iff {name : Text} {m : ModuleDecl} (free : library name = none)
    (found : file.find? (fun other => other.name = name) = some m) (pins : List Bool) :
    Holds library file name pins ↔ ∃ value, Constants value ∧
      (∀ cell ∈ m.cells, Holds library file cell.name (cell.pins.map value)) ∧
      pins = m.ports.map value := by
  have named : m.name = name := by simpa using List.find?_some found
  constructor
  · intro holds
    cases holds with
    | cell known => exact absurd (free.symm.trans known) (by simp)
    | module other found' constants inner =>
        obtain rfl := Option.some.inj (found.symm.trans found')
        exact ⟨_, constants, inner, rfl⟩
  · rintro ⟨value, constants, inner, rfl⟩
    subst named
    exact .module free found constants inner

/-- A gate of the language drives its first pin; some gates have one input. -/
structure Primitive where
  name : Text
  unary : Bool
  function : List Bool → Bool

def gates : List Primitive :=
  [⟨lit "buf", true, fun ins => ins.all id⟩, ⟨lit "not", true, fun ins => !ins.all id⟩,
    ⟨lit "and", false, fun ins => ins.all id⟩, ⟨lit "or", false, fun ins => ins.any id⟩,
    ⟨lit "nand", false, fun ins => !ins.all id⟩, ⟨lit "nor", false, fun ins => !ins.any id⟩,
    ⟨lit "xor", false, fun ins => ins.foldl xor false⟩,
    ⟨lit "xnor", false, fun ins => !ins.foldl xor false⟩]

def Primitive.Relates (gate : Primitive) (pins : List Bool) : Prop :=
  ∃ ins : List Bool, ins ≠ [] ∧ (gate.unary = true → ins.length = 1) ∧ pins = gate.function ins :: ins

@[simp] theorem Primitive.relates_cons (gate : Primitive) (output : Bool) (ins : List Bool) :
    gate.Relates (output :: ins) ↔
      ins ≠ [] ∧ (gate.unary = true → ins.length = 1) ∧ output = gate.function ins := by
  constructor
  · rintro ⟨others, nonempty, single, same⟩
    obtain ⟨rfl, rfl⟩ := List.cons.inj same
    exact ⟨nonempty, single, rfl⟩
  · rintro ⟨nonempty, single, rfl⟩
    exact ⟨ins, nonempty, single, rfl⟩

/-- The cells that every file can use. -/
def primitives : Library := fun name =>
  (gates.find? fun gate => gate.name = name).map Primitive.Relates

/-- The gates of the language have different names. -/
theorem primitives_eq {gate : Primitive} (listed : gate ∈ gates) :
    primitives gate.name = some gate.Relates := by
  have found : gates.find? (fun other => other.name = gate.name) = some gate := by
    simp only [gates, List.mem_cons, List.not_mem_nil, or_false] at listed
    rcases listed with rfl | rfl | rfl | rfl | rfl | rfl | rfl | rfl <;> rfl
  rw [primitives, found]
  rfl

/-- A name that starts with no gate's first letter is free for a module. -/
theorem primitives_free {name : Text} {c : Char} (first : name.head? = some c)
    (other : c ∉ ['b', 'n', 'a', 'o', 'x']) : primitives name = none := by
  have none : gates.find? (fun gate => gate.name = name) = none := by
    rw [List.find?_eq_none]
    intro gate listed same
    have start : ∀ name ∈ gates.map Primitive.name, name.headD ' ' ∈ ['b', 'n', 'a', 'o', 'x'] := by
      decide
    have letter := start gate.name (List.mem_map_of_mem listed)
    rw [decide_eq_true_eq.mp same, List.headD_eq_head?_getD, first] at letter
    exact other letter
  rw [primitives, none, Option.map_none]

/-- The cells of a module are in the library. -/
def Flat (library : Library) (m : ModuleDecl) : Prop := ∀ cell ∈ m.cells, library cell.name ≠ none

/-- The pins of a module whose cells are in the library. -/
def Allows (library : Library) (m : ModuleDecl) (pins : List Bool) : Prop :=
  ∃ value, Constants value ∧
    (∀ cell ∈ m.cells, ∃ relation, library cell.name = some relation ∧
      relation (cell.pins.map value)) ∧
    pins = m.ports.map value

/-- The other modules of the file do not matter to a flat module. -/
theorem holds_flat_iff {m : ModuleDecl} (flat : Flat library m) (free : library m.name = none)
    (found : file.find? (fun other => other.name = m.name) = some m) (pins : List Bool) :
    Holds library file m.name pins ↔ Allows library m pins := by
  rw [holds_module_iff free found, Allows]
  refine exists_congr fun value => and_congr_right fun _ => and_congr_left fun _ => ?_
  refine forall₂_congr fun cell listed => ?_
  obtain ⟨relation, known⟩ := Option.ne_none_iff_exists'.mp (flat cell listed)
  rw [holds_cell_iff known, known]
  simp

theorem ofFn_append_inj {A : Type} {n m : ℕ} {u x : Fin n → A} {v y : Fin m → A} :
    List.ofFn u ++ List.ofFn v = List.ofFn x ++ List.ofFn y ↔ u = x ∧ v = y := by
  constructor
  · intro same
    obtain ⟨ins, outs⟩ := List.append_inj same (by simp)
    exact ⟨List.ofFn_injective ins, List.ofFn_injective outs⟩
  · rintro ⟨rfl, rfl⟩
    rfl

/-- The results of a module are those of its function. -/
theorem Computes.holds_iff {name : Text} {n m : ℕ} {f : (Fin n → Bool) → Fin m → Bool}
    (computes : Computes library file name f) (x : Fin n → Bool) (y : Fin m → Bool) :
    Holds library file name (List.ofFn x ++ List.ofFn y) ↔ y = f x := by
  rw [computes]
  constructor
  · rintro ⟨u, same⟩
    obtain ⟨rfl, rfl⟩ := ofFn_append_inj.mp same
    rfl
  · rintro rfl
    exact ⟨x, rfl⟩

/-- Blocks of the same lengths are the same when they are the same together. -/
theorem flatMap_inj {A B : Type} {items : List A} {f g : A → List B}
    (size : ∀ item ∈ items, (f item).length = (g item).length)
    (same : items.flatMap f = items.flatMap g) : ∀ item ∈ items, f item = g item := by
  induction items with
  | nil => exact fun _ listed => absurd listed List.not_mem_nil
  | cons item items ih =>
      obtain ⟨own, later⟩ := List.append_inj same (size item List.mem_cons_self)
      exact List.forall_mem_cons.mpr
        ⟨own, ih (fun other inside => size other (List.mem_cons_of_mem item inside)) later⟩

/-- A module is found by its name when the names of the modules differ. -/
theorem find_module (distinct : (file.map ModuleDecl.name).Nodup) {m : ModuleDecl}
    (listed : m ∈ file) : file.find? (fun other => other.name = m.name) = some m := by
  induction file with
  | nil => exact absurd listed List.not_mem_nil
  | cons first file ih =>
      rw [List.map_cons, List.nodup_cons] at distinct
      rcases List.mem_cons.mp listed with rfl | later
      · exact List.find?_cons_of_pos (by simp)
      · have apart : first.name ≠ m.name := fun same =>
          distinct.1 (same ▸ List.mem_map_of_mem later)
        rw [List.find?_cons_of_neg (by simpa using apart)]
        exact ih distinct.2 later

/-- Different nets can have any values. -/
theorem exists_value {nets : List Text} (distinct : nets.Nodup) {values : List Bool}
    (size : values.length = nets.length) : ∃ value : Text → Bool, nets.map value = values := by
  refine ⟨fun net => values.getD (nets.idxOf net) false, List.ext_getElem (by simp [size]) ?_⟩
  intro i inside _
  rw [List.length_map] at inside
  simp [distinct.idxOf_getElem i inside, size, inside]

theorem exists_constants {nets : List Text} (distinct : nets.Nodup)
    (noConstant : ∀ net ∈ nets, net ≠ lit "1'b0" ∧ net ≠ lit "1'b1") {values : List Bool}
    (size : values.length = nets.length) :
    ∃ value, Constants value ∧ nets.map value = values := by
  have all : (lit "1'b0" :: lit "1'b1" :: nets).Nodup := by
    rw [List.nodup_cons, List.nodup_cons, List.mem_cons, not_or]
    exact ⟨⟨by decide, fun listed => (noConstant _ listed).1 rfl⟩,
      fun listed => (noConstant _ listed).2 rfl, distinct⟩
  obtain ⟨value, same⟩ := @exists_value _ all (false :: true :: values) (by simp [size])
  obtain ⟨zero, rest⟩ := List.cons.inj same
  obtain ⟨one, nets⟩ := List.cons.inj rest
  exact ⟨value, ⟨zero, one⟩, nets⟩

end Meaning

end LogicRegression.Structural
