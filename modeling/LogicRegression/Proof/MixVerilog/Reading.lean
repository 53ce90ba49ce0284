import LogicRegression.Library.Structural
import LogicRegression.Proof.MixVerilog.WellFormed
import LogicRegression.Proof.Verilog.Format

namespace LogicRegression.MixVerilog

open Text Structural

section Module

/-- A gate is a cell whose first pin is its output. -/
def gateCell : Gate Text → Cell
  | .buf output input => ⟨lit "buf", [output, input]⟩
  | .or output first second => ⟨lit "or", [output, first, second]⟩
  | .and output first second => ⟨lit "and", [output, first, second]⟩

def instanceCell (cell : Instance Text) : Cell := ⟨cell.module, cell.inputs ++ cell.outputs⟩

/-- The module that the text of a netlist describes. -/
def topDecl (top : Netlist Text) : ModuleDecl where
  name := lit "top"
  ports := top.ports
  inputs := top.inputs
  outputs := top.outputs
  wires := top.wires
  cells := top.gates.map gateCell ++ top.instances.map instanceCell

/-- The names of a netlist are single tokens, and no instance is taken for a declaration. -/
structure Legible (top : Netlist Text) : Prop where
  ports : ∀ name ∈ top.ports, IsName name
  inputs : ∀ name ∈ top.inputs, IsName name
  outputs : ∀ name ∈ top.outputs, IsName name
  wires : ∀ name ∈ top.wires, IsName name
  gates : ∀ gate ∈ top.gates, ∀ pin ∈ (gateCell gate).pins, IsName pin
  instances : ∀ cell ∈ top.instances, IsCell (instanceCell cell)

/-- A list of names is written with commas and blanks. -/
theorem tokens_commas {names : List Text} (all : ∀ name ∈ names, IsName name) {rest : Text}
    (stops : Stops rest) : tokens (commas names ++ rest) = names.intersperse [','] ++ tokens rest := by
  induction names with
  | nil => rfl
  | cons name names ih =>
      have own := all name List.mem_cons_self
      have later := ih fun other inside => all other (List.mem_cons_of_mem name inside)
      cases names with
      | nil =>
          have single : commas [name] = name := by simp [commas]
          rw [single, own.tokens_append stops]
          rfl
      | cons next names =>
          have split : commas (name :: next :: names) ++ rest =
              name ++ ',' :: ' ' :: (commas (next :: names) ++ rest) := by
            simp [commas, lit]
          rw [split, own.tokens_append (stops_cons _ (.inr rfl)), tokens_mark _ rfl,
            tokens_space _ rfl, later]
          rfl

/-- A line that declares some names. -/
theorem tokens_declarationLine {keyword : Text} (word : IsName keyword) {names : List Text}
    (all : ∀ name ∈ names, IsName name) (rest : Text) :
    tokens ('\t' :: keyword ++ ' ' :: commas names ++ lit ";" ++ '\n' :: rest) =
      keyword :: (names.intersperse [','] ++ [';'] :: tokens rest) := by
  have split : '\t' :: keyword ++ ' ' :: commas names ++ lit ";" ++ '\n' :: rest =
      '\t' :: (keyword ++ ' ' :: (commas names ++ ';' :: '\n' :: rest)) := by simp [lit]
  rw [split, tokens_space _ rfl, word.tokens_append (stops_cons _ (.inl rfl)), tokens_space _ rfl,
    tokens_commas all (stops_cons _ (.inr rfl)), tokens_mark _ rfl, tokens_space _ rfl]

/-- A line of a gate or of an instance. -/
theorem tokens_cellLine {cell : Cell} (isCell : IsCell cell) {gap : Text}
    (blank : ∀ c ∈ gap, isSpace c) (rest : Text) :
    tokens (cell.name ++ ' ' :: (gap ++ '(' :: ' ' :: (commas cell.pins ++ ' ' :: ')' :: ';' :: '\n' ::
      rest))) = cellTokens cell ++ [';'] :: tokens rest := by
  -- the end of the line, the pins and the bracket before them
  have ending : tokens (' ' :: ')' :: ';' :: '\n' :: rest) = [')'] :: [';'] :: tokens rest := by
    rw [tokens_space _ rfl, tokens_mark _ rfl, tokens_mark _ rfl, tokens_space _ rfl]
  have pins : tokens (commas cell.pins ++ ' ' :: ')' :: ';' :: '\n' :: rest) =
      cell.pins.intersperse [','] ++ [')'] :: [';'] :: tokens rest := by
    rw [tokens_commas isCell.pins (stops_cons _ (.inl rfl)), ending]
  have opening : tokens (gap ++ '(' :: ' ' :: (commas cell.pins ++ ' ' :: ')' :: ';' :: '\n' :: rest)) =
      ['('] :: (cell.pins.intersperse [','] ++ [')'] :: [';'] :: tokens rest) := by
    rw [tokens_spaces blank, tokens_mark _ rfl, tokens_space _ rfl, pins]
  rw [isCell.name.tokens_append (stops_cons _ (.inl rfl)), tokens_space _ rfl, opening, cellTokens]
  simp

variable {top : Netlist Text} (legible : Legible top)
include legible

theorem isCell_gateCell {gate : Gate Text} (listed : gate ∈ top.gates) : IsCell (gateCell gate) := by
  have primitive : ∀ name ∈ [lit "buf", lit "or", lit "and"], IsName name ∧ name ∉ keywords := by
    decide
  have known : (gateCell gate).name ∈ [lit "buf", lit "or", lit "and"] := by
    cases gate <;> simp [gateCell]
  exact ⟨(primitive _ known).1, (primitive _ known).2, legible.gates gate listed⟩

theorem tokens_gateText {gate : Gate Text} (listed : gate ∈ top.gates) (rest : Text) :
    tokens (gateText gate ++ rest) = cellTokens (gateCell gate) ++ [';'] :: tokens rest := by
  have line (gap : Text) (blank : ∀ c ∈ gap, isSpace c) :=
    tokens_cellLine (isCell_gateCell legible listed) blank rest
  cases gate with
  | buf output input =>
      rw [← line [' '] (by decide), gateText, gateCell]
      simp [lit]
  | or output first second =>
      rw [← line [' ', ' '] (by decide), gateText, gateCell]
      simp [lit]
  | and output first second =>
      rw [← line [' '] (by decide), gateText, gateCell]
      simp [lit]

theorem tokens_instanceText {cell : Instance Text} (listed : cell ∈ top.instances) (rest : Text) :
    tokens (instanceText cell ++ rest) = cellTokens (instanceCell cell) ++ [';'] :: tokens rest := by
  rw [← @tokens_cellLine _ (legible.instances cell listed) [] (by decide), instanceText,
    instanceCell]
  simp [lit]

/-- The cells of the module, without the lines before them. -/
theorem tokens_cells (rest : Text) :
    tokens (top.gates.flatMap gateText ++ (top.instances.flatMap instanceText ++ rest)) =
      ((topDecl top).cells.map cellTokens).flatMap (fun inner => inner ++ [[';']]) ++ tokens rest := by
  have gates (gates : List (Gate Text)) (listed : gates ⊆ top.gates) (rest : Text) :
      tokens (gates.flatMap gateText ++ rest) =
        ((gates.map gateCell).map cellTokens).flatMap (fun inner => inner ++ [[';']]) ++
          tokens rest := by
    induction gates with
    | nil => rfl
    | cons gate gates ih =>
        have own := tokens_gateText legible (listed List.mem_cons_self)
        rw [List.flatMap_cons, List.append_assoc, own, ih fun _ inside =>
          listed (List.mem_cons_of_mem gate inside)]
        simp
  have instances (cells : List (Instance Text)) (listed : cells ⊆ top.instances) :
      tokens (cells.flatMap instanceText ++ rest) =
        ((cells.map instanceCell).map cellTokens).flatMap (fun inner => inner ++ [[';']]) ++
          tokens rest := by
    induction cells with
    | nil => rfl
    | cons cell cells ih =>
        have own := tokens_instanceText legible (listed List.mem_cons_self)
        rw [List.flatMap_cons, List.append_assoc, own, ih fun _ inside =>
          listed (List.mem_cons_of_mem cell inside)]
        simp
  rw [gates _ (List.Subset.refl _), instances _ (List.Subset.refl _), topDecl, List.map_append,
    List.flatMap_append, List.append_assoc]

/-- The tokens of the statements before the cells, without their semicolons. -/
def headTokens (top : Netlist Text) : List (List Text) :=
  [lit "module" :: lit "top" :: ['('] :: (top.ports.intersperse [','] ++ [[')']]),
    lit "input" :: top.inputs.intersperse [','], lit "output" :: top.outputs.intersperse [','],
    lit "wire" :: top.wires.intersperse [',']]

theorem tokens_moduleText :
    tokens (moduleText top) = (headTokens top).flatMap (fun inner => inner ++ [[';']]) ++
      (((topDecl top).cells.map cellTokens).flatMap (fun inner => inner ++ [[';']]) ++
        [lit "endmodule"]) := by
  have split : moduleText top = lit "module" ++ ' ' :: (lit "top" ++ ' ' :: '(' :: '\n' :: '\t' ::
      (commas top.ports ++ ' ' :: ')' :: ';' :: '\n' ::
        ('\t' :: lit "input" ++ ' ' :: commas top.inputs ++ lit ";" ++ '\n' ::
          ('\t' :: lit "output" ++ ' ' :: commas top.outputs ++ lit ";" ++ '\n' ::
            ('\t' :: lit "wire" ++ ' ' :: commas top.wires ++ lit ";" ++ '\n' ::
              (top.gates.flatMap gateText ++ (top.instances.flatMap instanceText ++
                (lit "endmodule" ++ ['\n'])))))))) := by
    rw [moduleText]
    simp [lit]
  have ending : tokens (lit "endmodule" ++ ['\n']) = [lit "endmodule"] := by decide
  have keyword : ∀ word ∈ [lit "module", lit "top", lit "input", lit "output", lit "wire"],
      IsName word := by decide
  rw [split, (keyword (lit "module") (by simp)).tokens_append (stops_cons _ (.inl rfl)),
    tokens_space _ rfl, (keyword (lit "top") (by simp)).tokens_append (stops_cons _ (.inl rfl)),
    tokens_space _ rfl, tokens_mark _ rfl, tokens_space _ rfl, tokens_space _ rfl,
    tokens_commas legible.ports (stops_cons _ (.inl rfl)), tokens_space _ rfl, tokens_mark _ rfl,
    tokens_mark _ rfl, tokens_space _ rfl,
    tokens_declarationLine (keyword (lit "input") (by simp)) legible.inputs,
    tokens_declarationLine (keyword (lit "output") (by simp)) legible.outputs,
    tokens_declarationLine (keyword (lit "wire") (by simp)) legible.wires,
    tokens_cells legible, ending, headTokens]
  simp

/-- The text of a netlist is read as its module. -/
theorem read_moduleText : Structural.read (moduleText top) = some [topDecl top] := by
  have inner : ∀ inner ∈ headTokens top, Inner inner := by
    have list {keyword : Text} (word : IsName keyword) {names : List Text}
        (all : ∀ name ∈ names, IsName name) : Inner (keyword :: names.intersperse [',']) :=
      List.forall_mem_cons.mpr ⟨word.inner, inner_names all⟩
    simp only [headTokens, List.forall_mem_cons]
    exact ⟨List.forall_mem_cons.mpr ⟨by decide, List.forall_mem_cons.mpr ⟨by decide,
      inner_brackets legible.ports⟩⟩, list (by decide) legible.inputs,
      list (by decide) legible.outputs, list (by decide) legible.wires, by simp⟩
  have cells : ∀ cell ∈ (topDecl top).cells, IsCell cell := by
    rw [topDecl, List.forall_mem_append, List.forall_mem_map, List.forall_mem_map]
    exact ⟨fun gate listed => isCell_gateCell legible listed, legible.instances⟩
  have input : statementOf (lit "input" :: top.inputs.intersperse [',']) = .input top.inputs :=
    declared_names (unmarked_names legible.inputs)
  have output : statementOf (lit "output" :: top.outputs.intersperse [',']) = .output top.outputs :=
    declared_names (unmarked_names legible.outputs)
  have wire : statementOf (lit "wire" :: top.wires.intersperse [',']) = .wire top.wires :=
    declared_names (unmarked_names legible.wires)
  have list : statements (moduleText top) = .module (lit "top") top.ports :: .input top.inputs ::
      .output top.outputs :: .wire top.wires :: ((topDecl top).cells.map .cell ++ [.endmodule]) := by
    rw [statements, tokens_moduleText legible, pieces_flatMap inner, List.map_append,
      statements_cells cells, headTokens]
    simp only [List.map_cons, List.map_nil, input, output, wire,
      statementOf_module (unmarked_names legible.ports)]
    rfl
  rw [Structural.read, list]
  simp only [assemble]
  rw [assemble_cells]
  rfl

end Module

section Names

variable {n m : ℕ} {io : IoNames n m}

/-- The names of the signals are plain words of the netlist language. -/
structure PlainNames (io : IoNames n m) : Prop where
  plain : ∀ name ∈ io.names, WriteVerilog.IsPlain name
  noEnd : lit "endmodule" ∉ io.names

theorem isName_of_plain {name : Text} (word : IsWord name) (plain : WriteVerilog.IsPlain name)
    (noEnd : name ≠ lit "endmodule") : IsName name := by
  refine ⟨word, fun c inside => ?_, noEnd⟩
  have allowed := WriteVerilog.char_of_isPlain plain inside
  by_contra mark
  have listed : c ∈ ['(', ')', ',', ';'] :=
    List.contains_iff_mem.mp (Bool.eq_true_of_not_eq_false mark)
  revert allowed
  fin_cases listed <;> decide

/-- A plain name stays plain with one of the suffixes. -/
theorem isPlain_suffix {name suffix : Text} (word : IsWord name) (plain : WriteVerilog.IsPlain name)
    (solid : suffix.all fun c => c.isAlphanum || c = '_') (some_ : suffix ≠ []) :
    WriteVerilog.IsPlain (name ++ suffix) := by
  have long {c : Char} : name ++ suffix ≠ [c] := by
    intro same
    have sizes := congrArg List.length same
    have first := List.length_pos_of_ne_nil word.nonempty
    have second := List.length_pos_of_ne_nil some_
    simp only [List.length_append, List.length_singleton] at sizes
    omega
  refine ⟨⟨long, long⟩, ?_⟩
  rw [List.all_append, plain.2, solid]
  rfl

variable (plain : PlainNames io)
include plain

theorem isName_io {name : Text} (listed : name ∈ io.names) : IsName name :=
  isName_of_plain (io.words name listed) (plain.plain name listed) fun same =>
    plain.noEnd (same ▸ listed)

/-- The nets of an output are plain as well. -/
theorem ownNets_plain {i : ℕ} (inside : i < m) {net : Text} (listed : net ∈ ownNets io.names n i) :
    WriteVerilog.IsPlain net ∧ IsName net := by
  have output := output_mem io inside
  have word := io.words _ output
  have own := plain.plain _ output
  have suffixed : ∀ suffix ∈ [lit "_main", lit "_wrong1", lit "_wrong0", lit "_tks_new_wire"],
      WriteVerilog.IsPlain (outputName io.names n i ++ suffix) ∧
        IsName (outputName io.names n i ++ suffix) := by
    intro suffix inside
    have shape : ∀ suffix ∈ [lit "_main", lit "_wrong1", lit "_wrong0", lit "_tks_new_wire"],
        (suffix.all fun c => c.isAlphanum || c = '_') = true ∧ '_' ∈ suffix ∧
          ∀ c ∈ suffix, isSpace c = false := by decide
    obtain ⟨solid, mark, noSpace⟩ := shape suffix inside
    have long := isPlain_suffix word own solid (List.ne_nil_of_mem mark)
    refine ⟨long, isName_of_plain (word.append noSpace) long fun same => ?_⟩
    have underscore : '_' ∈ lit "endmodule" := same ▸ List.mem_append_right _ mark
    exact absurd underscore (by decide)
  rcases List.mem_cons.mp listed with rfl | wire
  · exact ⟨own, isName_io plain output⟩
  · simp only [wireBlock, List.mem_cons, List.not_mem_nil, or_false] at wire
    rcases wire with rfl | rfl | rfl | rfl <;> exact suffixed _ (by simp)

omit plain in
/-- The name of a submodule is plain, and it starts with an `s`. -/
theorem submoduleName_plain (i : ℕ) (b : Bool) :
    WriteVerilog.IsPlain (submoduleName i b) ∧ IsName (submoduleName i b) ∧
      (submoduleName i b).head? = some 's' := by
  have first : (submoduleName i b).head? = some 's' := rfl
  have start {name : Text} (other : name.head? ≠ some 's') : submoduleName i b ≠ name := by
    rintro rfl
    exact other first
  have letters : (∀ c ∈ lit "submodule", c.isAlphanum ∧ isSpace c = false) ∧
      ∀ b, ∀ c ∈ faultLabel b, c.isAlphanum ∧ isSpace c = false := by decide
  have solid : ∀ c ∈ submoduleName i b, c.isAlphanum ∧ isSpace c = false := by
    rw [submoduleName, List.forall_mem_append, List.forall_mem_append]
    refine ⟨⟨letters.1, fun c inside => ?_⟩, letters.2 b⟩
    have digit := decimal_isDigit inside
    exact ⟨by simp [Char.isAlphanum, digit], isSpace_of_isDigit digit⟩
  have plain : WriteVerilog.IsPlain (submoduleName i b) := by
    refine ⟨⟨start (by decide), start (by decide)⟩, List.all_eq_true.mpr fun c inside => ?_⟩
    simp [(solid c inside).1]
  have word : IsWord (submoduleName i b) :=
    ⟨fun none => by simp [none] at first, fun c inside => (solid c inside).2⟩
  exact ⟨plain, isName_of_plain word plain (start (by decide)), first⟩

variable (distinct : (io.names ++ wireName io.names n m).Nodup) (status : ℕ → Bool × Bool)
include distinct

/-- The written module is legible for all flags. -/
theorem topModule_legible : Legible (topModule io.names n m status) := by
  have formed := topModule_wellFormed status distinct
  have names : ∀ name ∈ io.names, IsName name := fun name listed => isName_io plain listed
  have ports : ∀ name ∈ (topModule io.names n m status).ports, IsName name := fun name listed =>
    names name (List.mem_of_mem_take listed)
  have wires : ∀ name ∈ (topModule io.names n m status).wires, IsName name := by
    intro name listed
    obtain ⟨i, inside, wire⟩ := (mem_wires status).mp listed
    exact (ownNets_plain plain inside
      (blockWires_subset io.names n i (status i) (List.mem_cons_of_mem _ wire))).2
  have pin {name : Text} (listed : name ∈ (topModule io.names n m status).drivers ++
      (topModule io.names n m status).readers) : IsName name :=
    (formed.declared name listed).elim (ports name) (wires name)
  refine ⟨ports, fun name listed => names name (List.mem_of_mem_take listed),
    fun name listed => names name (List.mem_of_mem_drop (List.mem_of_mem_take listed)), wires, ?_, ?_⟩
  · intro gate listed name inside
    have split : (gateCell gate).pins = gate.output :: gate.inputs := by cases gate <;> rfl
    rw [split] at inside
    rcases List.mem_cons.mp inside with rfl | input
    · exact pin (List.mem_append_left _ (List.mem_append_left _ (List.mem_map_of_mem listed)))
    · exact pin (List.mem_append_right _ (List.mem_append_left _
        (List.mem_flatMap.mpr ⟨gate, listed, input⟩)))
  · intro cell listed
    have pins : ∀ name ∈ (instanceCell cell).pins, IsName name := by
      rw [instanceCell, List.forall_mem_append]
      exact ⟨fun name input => pin (List.mem_append_right _ (List.mem_append_right _
          (List.mem_flatMap.mpr ⟨cell, listed, input⟩))),
        fun name output => pin (List.mem_append_left _ (List.mem_append_right _
          (List.mem_flatMap.mpr ⟨cell, listed, output⟩)))⟩
    have named : (instanceCell cell).name = lit "main_circuit" ∨
        ∃ i b, (instanceCell cell).name = submoduleName i b := by
      rcases List.mem_cons.mp listed with rfl | sub
      · exact .inl rfl
      · obtain ⟨i, -, block⟩ := List.mem_flatMap.mp sub
        rw [submodules_eq] at block
        obtain ⟨b, -, rfl⟩ := List.mem_map.mp block
        exact .inr ⟨i, b, rfl⟩
    rcases named with main | ⟨i, b, sub⟩
    · have word : IsName (lit "main_circuit") ∧ lit "main_circuit" ∉ keywords := by decide
      exact ⟨main ▸ word.1, main ▸ word.2, pins⟩
    · obtain ⟨-, isName, first⟩ := submoduleName_plain i b
      have other : ∀ word ∈ keywords, word.head? ≠ some 's' := by decide
      exact ⟨sub ▸ isName, fun keyword => other _ keyword (sub ▸ first), pins⟩

end Names

section Rows

/-- The lines of the written module. -/
def moduleRows (top : Netlist Text) : List Text :=
  [lit "module top (", '\t' :: commas top.ports ++ lit " );",
    lit "\tinput " ++ commas top.inputs ++ lit ";", lit "\toutput " ++ commas top.outputs ++ lit ";",
    lit "\twire " ++ commas top.wires ++ lit ";"] ++
    (top.gates.map fun gate => (gateText gate).dropLast) ++
    (top.instances.map fun cell => (instanceText cell).dropLast) ++ [lit "endmodule"]

theorem moduleText_eq (top : Netlist Text) :
    moduleText top = (moduleRows top).flatMap fun row => row ++ ['\n'] := by
  have gate (gate : Gate Text) : (gateText gate).dropLast ++ ['\n'] = gateText gate := by
    cases gate <;> rw [gateText, List.dropLast_concat]
  have cell (cell : Instance Text) : (instanceText cell).dropLast ++ ['\n'] = instanceText cell := by
    rw [instanceText, List.dropLast_concat]
  simp only [moduleRows, List.flatMap_append, List.flatMap_map, gate, cell]
  rw [moduleText]
  simp [lit]

theorem commas_single {names : List Text} (single : ∀ name ∈ names, '\n' ∉ name) :
    '\n' ∉ commas names := by
  induction names with
  | nil => exact List.not_mem_nil
  | cons name names ih =>
      have own := single name List.mem_cons_self
      have later := ih fun other inside => single other (List.mem_cons_of_mem name inside)
      cases names with
      | nil => simpa [commas] using own
      | cons next names =>
          have split : commas (name :: next :: names) = name ++ (lit ", " ++ commas (next :: names)) := by
            simp [commas]
          rw [split, List.mem_append, List.mem_append, not_or, not_or]
          exact ⟨own, by decide, later⟩

theorem single_of_isName {name : Text} (isName : IsName name) : '\n' ∉ name := fun inside =>
  absurd (isName.word.solid '\n' inside) (by decide)

variable {top : Netlist Text} (legible : Legible top)
include legible

/-- No line is broken, and a line is rewritten only when an instance has the name of a constant. -/
theorem moduleRows_kept
    (apart : ∀ cell ∈ top.instances, cell.module.head? ≠ some 'z' ∧ cell.module.head? ≠ some 'o') :
    ∀ row ∈ moduleRows top, '\n' ∉ row ∧ Verilog.modifyLine row = row := by
  have kept {row : Text} (zero : row.take 4 ≠ lit "zero") (one : row.take 4 ≠ lit "one ") :
      Verilog.modifyLine row = row := by rw [Verilog.modifyLine, if_neg zero, if_neg one]
  have plain {row : Text} {c : Char} {rest : Text} (start : row = c :: rest)
      (other : c ≠ 'z' ∧ c ≠ 'o') : Verilog.modifyLine row = row := by
    subst start
    exact kept (fun same => other.1 (List.cons.inj same).1) fun same => other.2 (List.cons.inj same).1
  have list {names : List Text} (all : ∀ name ∈ names, IsName name) : '\n' ∉ commas names :=
    commas_single fun name listed => single_of_isName (all name listed)
  have ports := list legible.ports
  have inputs := list legible.inputs
  have outputs := list legible.outputs
  have wires := list legible.wires
  rw [moduleRows, List.forall_mem_append, List.forall_mem_append, List.forall_mem_append]
  refine ⟨⟨⟨?_, ?_⟩, ?_⟩, ?_⟩
  · simp only [List.forall_mem_cons]
    exact ⟨⟨by decide, plain rfl (by decide)⟩, ⟨by simp [lit, ports], plain rfl (by decide)⟩,
      ⟨by simp [lit, inputs], plain rfl (by decide)⟩, ⟨by simp [lit, outputs], plain rfl (by decide)⟩,
      ⟨by simp [lit, wires], plain rfl (by decide)⟩, by simp⟩
  · rw [List.forall_mem_map]
    intro gate listed
    have pins := list (legible.gates gate listed)
    cases gate with
    | buf output input =>
        have row : (gateText (.buf output input)).dropLast =
            lit "buf  ( " ++ commas [output, input] ++ lit " );" := List.dropLast_concat
        rw [row]
        exact ⟨by simp only [List.mem_append, not_or]; exact ⟨⟨by decide, pins⟩, by decide⟩,
          plain rfl (by decide)⟩
    | or output first second =>
        have row : (gateText (.or output first second)).dropLast =
            lit "or   ( " ++ commas [output, first, second] ++ lit " );" := List.dropLast_concat
        rw [row]
        refine ⟨by simp only [List.mem_append, not_or]; exact ⟨⟨by decide, pins⟩, by decide⟩, ?_⟩
        have start : (lit "or   ( " ++ commas [output, first, second] ++ lit " );").take 4 =
            lit "or  " := rfl
        exact kept (by rw [start]; decide) (by rw [start]; decide)
    | and output first second =>
        have row : (gateText (.and output first second)).dropLast =
            lit "and  ( " ++ commas [output, first, second] ++ lit " );" := List.dropLast_concat
        rw [row]
        exact ⟨by simp only [List.mem_append, not_or]; exact ⟨⟨by decide, pins⟩, by decide⟩,
          plain rfl (by decide)⟩
  · rw [List.forall_mem_map]
    intro cell listed
    have isCell := legible.instances cell listed
    have row : (instanceText cell).dropLast =
        cell.module ++ (lit " ( " ++ commas (cell.inputs ++ cell.outputs) ++ lit " );") := by
      rw [instanceText, List.dropLast_concat, List.append_assoc, List.append_assoc, List.append_assoc]
    obtain ⟨c, rest, same⟩ := List.exists_cons_of_ne_nil isCell.name.word.nonempty
    change cell.module = c :: rest at same
    have other := apart cell listed
    rw [same] at other
    refine ⟨?_, plain (row.trans (by rw [same]; rfl)) (by simpa using other)⟩
    rw [row]
    simp only [List.mem_append, not_or]
    exact ⟨single_of_isName isCell.name, ⟨by decide, list isCell.pins⟩, by decide⟩
  · rw [List.forall_mem_singleton]
    exact ⟨by decide, plain rfl (by decide)⟩

end Rows

section Files

/-- The faults whose flags are set, output by output. -/
def faults (outputNum : ℕ) (status : ℕ → Bool × Bool) : List (ℕ × Bool) :=
  (List.range outputNum).flatMap fun i =>
    ([false, true].filter (flagOf (status i))).map fun b => (i, b)

variable {outputNum : ℕ} {status : ℕ → Bool × Bool}

@[simp] theorem mem_faults {i : ℕ} {b : Bool} :
    (i, b) ∈ faults outputNum status ↔ i < outputNum ∧ flagOf (status i) b = true := by
  simp only [faults, List.mem_flatMap, List.mem_range, List.mem_map, List.mem_filter, Prod.mk.injEq]
  constructor
  · rintro ⟨j, inside, c, ⟨-, flag⟩, rfl, rfl⟩
    exact ⟨inside, flag⟩
  · rintro ⟨inside, flag⟩
    exact ⟨i, inside, b, ⟨by cases b <;> simp, flag⟩, rfl, rfl⟩

theorem faults_nodup : (faults outputNum status).Nodup := by
  rw [faults, List.nodup_flatMap]
  refine ⟨fun i _ => ?_, List.nodup_range.pairwise_of_forall_ne fun i _ j _ apart => ?_⟩
  · exact (List.Nodup.filter _ (by decide)).map fun b c same => (Prod.mk.inj same).2
  · intro entry first second
    obtain ⟨b, -, rfl⟩ := List.mem_map.mp first
    obtain ⟨c, -, same⟩ := List.mem_map.mp second
    exact apart (Prod.mk.inj same).1.symm

/-- After the main circuit there is one instance for each fault. -/
theorem instances_eq (ioNames : List Text) (inputNum : ℕ) :
    (topModule ioNames inputNum outputNum status).instances =
      mainCircuit ioNames inputNum outputNum ::
        (faults outputNum status).map fun fault => submodule ioNames inputNum fault.1 fault.2 := by
  have blocks : (List.range outputNum).flatMap (fun i => submodules ioNames inputNum i (status i)) =
      (faults outputNum status).map fun fault => submodule ioNames inputNum fault.1 fault.2 := by
    rw [faults, List.map_flatMap]
    apply List.flatMap_congr
    intro i _
    rw [submodules_eq, List.map_map]
    rfl
  rw [← blocks]
  rfl

/-- After the circuit there is one file for each fault. -/
theorem appendedFiles_faults :
    appendedFiles outputNum status = lit "beyond_before_fix_circuit.v" ::
      (faults outputNum status).map fun fault => faultName fault.1 fault.2.toNat ++ lit ".v" := by
  rw [appendedFiles, faults, List.map_flatMap]
  congr 1
  apply List.flatMap_congr
  intro i _
  generalize status i = flags
  obtain ⟨first, second⟩ := flags
  cases first <;> cases second <;> rfl

/-- The rewriting goes through the copied files one by one. -/
theorem modifyVerilogFormat_copies (files : Text → Option Text) (names : List Text) :
    Verilog.modifyVerilogFormat (names.flatMap fun name => copyLines (files name)) =
      names.flatMap fun name => Verilog.modifyVerilogFormat ((files name).getD []) := by
  induction names with
  | nil => rfl
  | cons name names ih =>
      rw [List.flatMap_cons, List.flatMap_cons, ← ih, copyLines]
      exact Verilog.modifyVerilogFormat_rows (fun row listed => Verilog.single_of_mem_lines listed) _

theorem noShort_copies {files : Text → Option Text} {names : List Text}
    (safe : ∀ name ∈ names, Verilog.NoShort ((files name).getD [])) :
    Verilog.NoShort (names.flatMap fun name => copyLines (files name)) := by
  induction names with
  | nil => rfl
  | cons name names ih =>
      rw [List.forall_mem_cons] at safe
      rw [List.flatMap_cons, copyLines]
      exact Verilog.noShort_rows (fun row listed => Verilog.single_of_mem_lines listed)
        (fun row listed => Bool.eq_false_iff.mpr (List.any_eq_false.mp safe.1 row listed)) (ih safe.2)

variable {n m : ℕ} {io : IoNames n m} (plain : PlainNames io)
  (distinct : (io.names ++ wireName io.names n m).Nodup) {files : Text → Option Text}
  (faulty : ∃ i < m, faultStatus files i ≠ (false, false))
include plain distinct faulty

omit plain distinct in
/-- The mixed file has the module and then the files of its instances. -/
theorem mixCircuit_eq : mixCircuit files io.names n m =
    moduleText (topModule io.names n m (faultStatus files)) ++
      (appendedFiles m (faultStatus files)).flatMap fun name => copyLines (files name) := by
  obtain ⟨i, inside, flag⟩ := faulty
  rw [mixCircuit, if_neg]
  intro clean
  exact flag (of_decide_eq_true (List.all_eq_true.mp clean i (List.mem_range.mpr inside)))

omit faulty in
/-- No line of the module is broken or rewritten. -/
theorem topRows_kept : ∀ row ∈ moduleRows (topModule io.names n m (faultStatus files)),
    '\n' ∉ row ∧ Verilog.modifyLine row = row := by
  apply moduleRows_kept (topModule_legible plain distinct (faultStatus files))
  intro cell listed
  rw [instances_eq] at listed
  rcases List.mem_cons.mp listed with rfl | sub
  · have first : (mainCircuit io.names n m).module.head? = some 'm' := rfl
    exact ⟨by rw [first]; decide, by rw [first]; decide⟩
  · obtain ⟨fault, -, rfl⟩ := List.mem_map.mp sub
    have first : (submodule io.names n fault.1 fault.2).module.head? = some 's' := rfl
    exact ⟨by rw [first]; decide, by rw [first]; decide⟩

/-- The file that is flattened: the module, and then the rewritten files of its instances. -/
theorem modifyVerilogFormat_mixCircuit :
    Verilog.modifyVerilogFormat (mixCircuit files io.names n m) =
      moduleText (topModule io.names n m (faultStatus files)) ++
        (appendedFiles m (faultStatus files)).flatMap fun name =>
          Verilog.modifyVerilogFormat ((files name).getD []) := by
  have kept : ∀ row ∈ moduleRows (topModule io.names n m (faultStatus files)),
      '\n' ∉ row ∧ Verilog.modifyLine row = row := topRows_kept plain distinct
  have same : (moduleRows (topModule io.names n m (faultStatus files))).flatMap
      (fun row => Verilog.modifyLine row ++ ['\n']) =
        (moduleRows (topModule io.names n m (faultStatus files))).flatMap fun row => row ++ ['\n'] :=
    List.flatMap_congr fun row listed => by rw [(kept row listed).2]
  rw [mixCircuit_eq faulty, ← modifyVerilogFormat_copies, moduleText_eq,
    Verilog.modifyVerilogFormat_rows (fun row listed => (kept row listed).1), same]

/-- The mixed file is safe to rewrite when the files of its instances are. -/
theorem noShort_mixCircuit (safe : ∀ name ∈ appendedFiles m (faultStatus files),
    Verilog.NoShort ((files name).getD [])) : Verilog.NoShort (mixCircuit files io.names n m) := by
  have kept : ∀ row ∈ moduleRows (topModule io.names n m (faultStatus files)),
      '\n' ∉ row ∧ Verilog.modifyLine row = row := topRows_kept plain distinct
  rw [mixCircuit_eq faulty, moduleText_eq]
  apply Verilog.noShort_rows (fun row listed => (kept row listed).1) fun row listed =>
    Verilog.isShort_of_kept (kept row listed).2
  exact noShort_copies safe

/-- The file is read as the module, the main circuit and one submodule for each fault. -/
theorem read_mixCircuit {main : WriteVerilog.Network} {sub : ℕ → Bool → WriteVerilog.Network}
    (mainLegible : main.Legible)
    (subLegible : ∀ fault ∈ faults m (faultStatus files), (sub fault.1 fault.2).Legible)
    (circuit : files (lit "beyond_before_fix_circuit.v") =
      some (Verilog.modifyVerilogFormat (WriteVerilog.writeVerilog main)))
    (subs : ∀ fault ∈ faults m (faultStatus files),
      files (faultName fault.1 fault.2.toNat ++ lit ".v") =
        some (WriteVerilog.writeVerilog (sub fault.1 fault.2))) :
    Structural.read (Verilog.modifyVerilogFormat (mixCircuit files io.names n m)) =
      some (topDecl (topModule io.names n m (faultStatus files)) :: Verilog.rewritten main.module ::
        (faults m (faultStatus files)).map fun fault =>
          Verilog.rewritten (sub fault.1 fault.2).module) := by
  have first := read_moduleText (topModule_legible plain distinct (faultStatus files))
  have ended : Ended (moduleText (topModule io.names n m (faultStatus files))) := by
    rw [moduleText_eq]
    apply ended_flatMap
    intro row _ c last
    rw [List.getLast?_concat, Option.mem_some_iff] at last
    subst last
    decide
  have second : Structural.read (Verilog.modifyVerilogFormat
      ((files (lit "beyond_before_fix_circuit.v")).getD [])) = some [Verilog.rewritten main.module] := by
    rw [circuit, Option.getD_some, Verilog.modifyVerilogFormat_idem]
    exact Verilog.read_modifyVerilogFormat mainLegible
  have rest : Structural.read ((faults m (faultStatus files)).flatMap fun fault =>
      Verilog.modifyVerilogFormat ((files (faultName fault.1 fault.2.toNat ++ lit ".v")).getD [])) =
        some ((faults m (faultStatus files)).flatMap fun fault =>
          [Verilog.rewritten (sub fault.1 fault.2).module]) := by
    apply read_flatMap
    · intro fault listed
      rw [subs fault listed]
      exact Verilog.read_modifyVerilogFormat (subLegible fault listed)
    · exact fun fault _ => Verilog.ended_modifyVerilogFormat _
  rw [modifyVerilogFormat_mixCircuit plain distinct faulty, read_append first ended,
    appendedFiles_faults, List.flatMap_cons, read_append second (Verilog.ended_modifyVerilogFormat _),
    List.flatMap_map, rest, ← List.map_eq_flatMap]
  rfl

end Files

end LogicRegression.MixVerilog
