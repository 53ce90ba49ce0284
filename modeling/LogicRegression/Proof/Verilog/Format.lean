import LogicRegression.Construction.Verilog
import LogicRegression.Proof.WriteVerilog.Lines
import LogicRegression.Proof.WriteVerilog.Meaning

namespace LogicRegression.Verilog

open Text Structural WriteVerilog

section Rows

/-- The rows of a text are rewritten one by one. -/
theorem modifyVerilogFormat_rows {rows : List Text} (single : ∀ row ∈ rows, '\n' ∉ row)
    (rest : Text) :
    modifyVerilogFormat ((rows.flatMap fun row => row ++ ['\n']) ++ rest) =
      (rows.flatMap fun row => modifyLine row ++ ['\n']) ++ modifyVerilogFormat rest := by
  rw [modifyVerilogFormat, lines_flatMap (fun row => row) rows rest single, List.map_id',
    List.flatMap_append]
  rfl

theorem gatecnt_rows {rows : List Text} (single : ∀ row ∈ rows, '\n' ∉ row) (rest : Text) :
    gatecnt ((rows.flatMap fun row => row ++ ['\n']) ++ rest) = rows.countP isGate + gatecnt rest := by
  rw [gatecnt, lines_flatMap (fun row => row) rows rest single, List.map_id', List.countP_append]
  rfl

/-- A row that starts with one of these characters is neither rewritten nor counted. -/
def Plain (row : Text) : Prop := ∀ c ∈ row.head?, c ∈ ['m', ' ', 'e']

theorem take_of_plain {row : Text} (plain : Plain row) {word : Text} {c : Char}
    (first : word.head? = some c) (other : c ∉ ['m', ' ', 'e']) : row.take 4 ≠ word := by
  rintro rfl
  cases row with
  | nil => simp at first
  | cons d row =>
      obtain rfl : d = c := by simpa using first
      exact other (plain d rfl)

theorem modifyLine_of_plain {row : Text} (plain : Plain row) : modifyLine row = row := by
  rw [modifyLine, if_neg (take_of_plain plain (c := 'z') rfl (by decide)),
    if_neg (take_of_plain plain (c := 'o') rfl (by decide))]

/-- A row that stays as it is has no constant cell. -/
theorem isShort_of_kept {row : Text} (kept : modifyLine row = row) : isShort row = false := by
  by_cases constant : row.take 4 = lit "zero" ∨ row.take 4 = lit "one "
  · exfalso
    have start : (modifyLine row).take 4 = lit "buf " := by
      rw [modifyLine]
      split
      · rfl
      · next other =>
          rw [if_pos (constant.resolve_left other)]
          rfl
    rw [kept] at start
    rcases constant with zero | one
    · exact absurd (zero.symm.trans start) (by decide)
    · exact absurd (one.symm.trans start) (by decide)
  · simp [isShort, not_or.mp constant]

theorem isShort_of_length {row : Text} (size : 10 ≤ row.length) : isShort row = false := by
  have long : ¬ row.length < 10 := size.not_gt
  simp [isShort, long]

/-- No line of a constant cell is too short. -/
def NoShort (file : Text) : Prop := (lines file).any isShort = false

theorem noShort_rows {rows : List Text} (single : ∀ row ∈ rows, '\n' ∉ row)
    (long : ∀ row ∈ rows, isShort row = false) {rest : Text} (noShort : NoShort rest) :
    NoShort ((rows.flatMap fun row => row ++ ['\n']) ++ rest) := by
  rw [NoShort, lines_flatMap (fun row => row) rows rest single, List.map_id', List.any_append,
    noShort, Bool.or_false, List.any_eq_false]
  exact fun row listed => by rw [long row listed]; decide

theorem isGate_of_plain {row : Text} (plain : Plain row) : isGate row = false := by
  rw [isGate, Bool.eq_false_iff]
  intro contained
  have listed := List.contains_iff_mem.mp contained
  have starts : ∃ c, (row.take 4).head? = some c ∧ c ∉ ['m', ' ', 'e'] := by
    simp only [List.mem_cons, List.not_mem_nil, or_false] at listed
    rcases listed with same | same | same | same | same | same <;> rw [same] <;>
      exact ⟨_, rfl, by decide⟩
  obtain ⟨c, first, other⟩ := starts
  exact take_of_plain plain first other rfl

theorem plain_of_indented {row : Text} (blank : row.head? = some ' ') : Plain row := by
  intro c first
  rw [blank] at first
  obtain rfl := Option.some.inj first
  decide

end Rows

section Layout

variable {net : Network} {emit : Text → Text} (single : ∀ name ∈ net.nets, '\n' ∉ emit name)
  {title : Text} (noBreak : '\n' ∉ title) (plain : Plain title) {line : Node → Text}
  (solid : ∀ node ∈ net.nodes, '\n' ∉ line node)
include single noBreak plain solid

/-- Only the lines of the nodes are rewritten. -/
theorem modifyVerilogFormat_layBody :
    modifyVerilogFormat (title ++ '\n' :: layBody emit line net) =
      title ++ '\n' :: layBody emit (fun node => modifyLine (line node)) net := by
  obtain ⟨rows, all, same⟩ := layBody_rows single
  have kept : rows.flatMap (fun row => modifyLine row ++ ['\n']) =
      rows.flatMap fun row => row ++ ['\n'] :=
    List.flatMap_congr fun row listed => by
      rw [modifyLine_of_plain (plain_of_indented (all row listed).2)]
  have split := modifyVerilogFormat_rows (rows_single all noBreak solid) []
  rw [List.append_nil, ← same] at split
  rw [split, same, List.flatMap_cons, List.flatMap_cons, List.flatMap_append, List.flatMap_append,
    List.flatMap_append, List.flatMap_append, List.flatMap_map, List.flatMap_map, kept,
    modifyLine_of_plain plain, List.append_assoc]
  simp only [List.append_assoc]
  rfl

/-- The lines of the nodes are counted. -/
theorem gatecnt_layBody :
    gatecnt (title ++ '\n' :: layBody emit line net) =
      net.nodes.countP fun node => isGate (line node) := by
  obtain ⟨rows, all, same⟩ := layBody_rows single
  have none : rows.countP isGate = 0 :=
    List.countP_eq_zero.mpr fun row listed => by
      rw [isGate_of_plain (plain_of_indented (all row listed).2)]
      decide
  have split := gatecnt_rows (rows_single all noBreak solid) []
  rw [List.append_nil, ← same] at split
  have last : [lit "endmodule", [], []].countP isGate + gatecnt [] = 0 := rfl
  rw [split, List.countP_cons_of_neg (by simp [isGate_of_plain plain]), List.countP_append,
    List.countP_append, none, List.countP_map, Nat.zero_add, Nat.add_assoc, last, Nat.add_zero]
  rfl

/-- A file is safe to rewrite when the lines of its nodes are. -/
theorem noShort_layBody (long : ∀ node ∈ net.nodes, isShort (line node) = false) :
    NoShort (title ++ '\n' :: layBody emit line net) := by
  obtain ⟨rows, all, same⟩ := layBody_rows single
  have safe : ∀ row ∈ title :: (rows ++ (net.nodes.map line ++ [lit "endmodule", [], []])),
      isShort row = false := by
    rw [List.forall_mem_cons, List.forall_mem_append, List.forall_mem_append, List.forall_mem_map]
    exact ⟨isShort_of_kept (modifyLine_of_plain plain), fun row listed =>
      isShort_of_kept (modifyLine_of_plain (plain_of_indented (all row listed).2)), long, by decide⟩
  have nothing : NoShort [] := rfl
  have whole := noShort_rows (rows_single all noBreak solid) safe nothing
  rwa [List.append_nil, ← same] at whole

end Layout

section Line

/-- A row of a node starts with the name of its gate, padded to four characters. -/
theorem take_layLine {emit : Text → Text} {node : Node} (gate : node.gate ∈ verifyLib) :
    (layLine emit node).take 4 = List.rightpad 4 ' ' node.gate.name := by
  have width : (List.rightpad 4 ' ' node.gate.name).length = 4 := by
    have all : ∀ name ∈ verifyLib.map MioGate.name, (List.rightpad 4 ' ' name).length = 4 := by
      decide
    exact all _ (List.mem_map_of_mem gate)
  rw [layLine, List.append_assoc]
  exact List.take_left' width

/-- A row of a node is long enough for the name of its output. -/
theorem isShort_layLine (emit : Text → Text) (node : Node) : isShort (layLine emit node) = false := by
  apply isShort_of_length
  have pad : 4 ≤ (List.rightpad 4 ' ' node.gate.name).length := by
    rw [List.rightpad, List.length_append, List.length_replicate]
    omega
  have opening : (lit " ( ").length = 3 := rfl
  have closing : (lit " );").length = 3 := rfl
  rw [layLine, List.length_append, List.length_append, List.length_append, List.length_append]
  omega

/-- The counted gates are those with two inputs. -/
theorem isGate_layLine {emit : Text → Text} {node : Node} (gate : node.gate ∈ verifyLib) :
    isGate (layLine emit node) = decide (node.gate.pins = 2) := by
  have all : ∀ entry ∈ verifyLib.map fun gate => (gate.name, gate.pins),
      [lit "and ", lit "or  ", lit "nand", lit "nor ", lit "xor ", lit "xnor"].contains
        (List.rightpad 4 ' ' entry.1) = decide (entry.2 = 2) := by decide
  rw [isGate, take_layLine gate]
  exact all _ (List.mem_map_of_mem (f := fun gate => (gate.name, gate.pins)) gate)

/-- The buffers of the two constants, by the name of the constant cell. -/
def constantOf (name : Text) : Option Text :=
  if name = lit "zero" then some (lit "1'b0")
  else if name = lit "one" then some (lit "1'b1") else none

/-- The name between the first seven and the last three characters. -/
theorem outputName_eq {first : Text} (size : first.length = 7) (name : Text) :
    outputName (first ++ (name ++ lit " );")) = name := by
  have cut : (first ++ (name ++ lit " );")).take ((first ++ (name ++ lit " );")).length - 3) =
      first ++ name := by
    rw [← List.append_assoc]
    apply List.take_left'
    simp [lit]
    omega
  rw [outputName, cut]
  exact List.drop_left' size

/-- A constant cell has no inputs. -/
theorem fanins_of_constant {node : Node} (gate : node.gate ∈ verifyLib)
    (constant : constantOf node.gate.name ≠ none) : node.fanins = [] := by
  have all : ∀ entry ∈ verifyLib.map fun gate => (gate.name, gate.pins),
      constantOf entry.1 ≠ none → entry.2 = 0 := by decide
  have none := all _ (List.mem_map_of_mem (f := fun gate => (gate.name, gate.pins)) gate) constant
  rw [← List.length_eq_zero_iff, node.fits]
  exact none

/-- The row of a constant becomes the row of a buffer, every other row stays. -/
theorem modifyLine_layLine {emit : Text → Text} {node : Node} (gate : node.gate ∈ verifyLib) :
    modifyLine (layLine emit node) = match constantOf node.gate.name with
      | some constant => lit "buf  ( " ++ emit node.net ++ lit ", " ++ constant ++ lit " );"
      | none => layLine emit node := by
  have start : ∀ name ∈ verifyLib.map MioGate.name,
      (List.rightpad 4 ' ' name = lit "zero" ↔ name = lit "zero") ∧
        (List.rightpad 4 ' ' name = lit "one " ↔ name = lit "one") := by decide
  obtain ⟨zero, one⟩ := start _ (List.mem_map_of_mem gate)
  rw [modifyLine, take_layLine gate]
  simp only [zero, one]
  by_cases isZero : node.gate.name = lit "zero"
  · have constant : constantOf node.gate.name = some (lit "1'b0") := if_pos isZero
    have row : layLine emit node = lit "zero ( " ++ (emit node.net ++ lit " );") := by
      rw [layLine, fanins_of_constant gate (by simp [constant]), isZero]
      rfl
    rw [if_pos isZero, constant, row, outputName_eq rfl]
    simp only [List.append_assoc]
    rfl
  · by_cases isOne : node.gate.name = lit "one"
    · have constant : constantOf node.gate.name = some (lit "1'b1") :=
        (if_neg isZero).trans (if_pos isOne)
      have row : layLine emit node = lit "one  ( " ++ (emit node.net ++ lit " );") := by
        rw [layLine, fanins_of_constant gate (by simp [constant]), isOne]
        rfl
      rw [if_neg isZero, if_pos isOne, constant, row, outputName_eq rfl]
      simp only [List.append_assoc]
      rfl
    · have constant : constantOf node.gate.name = none := (if_neg isZero).trans (if_neg isOne)
      rw [if_neg isZero, if_neg isOne, constant]

/-- The cell that takes the place of a cell. -/
def rewrittenCell (cell : Cell) : Cell :=
  match constantOf cell.name with
  | some constant => ⟨lit "buf", cell.pins ++ [constant]⟩
  | none => cell

/-- The module that takes the place of a module. -/
def rewritten (m : ModuleDecl) : ModuleDecl := { m with cells := m.cells.map rewrittenCell }

theorem constantOf_isName {name constant : Text} (same : constantOf name = some constant) :
    IsName constant := by
  rw [constantOf] at same
  split at same
  · cases same
    exact ⟨⟨by decide, by decide⟩, by decide, by decide⟩
  · split at same
    · cases same
      exact ⟨⟨by decide, by decide⟩, by decide, by decide⟩
    · cases same

variable {naming : Naming} {node : Node} (gate : node.gate ∈ verifyLib)
  (legible : ∀ name ∈ node.net :: node.fanins, naming.Legible name)
include gate legible

/-- The rewritten row has the tokens of the rewritten cell. -/
theorem tokens_modifyLine (rest : Text) :
    tokens (modifyLine (layLine naming.emit node) ++ '\n' :: rest) =
      cellTokens (rewrittenCell (node.cell naming.word)) ++ [';'] :: tokens rest := by
  have own := legible node.net List.mem_cons_self
  rw [modifyLine_layLine gate, rewrittenCell, show (node.cell naming.word).name = node.gate.name
    from rfl]
  cases same : constantOf node.gate.name with
  | none => exact tokens_layLine gate legible rest
  | some constant =>
      have word : IsName (lit "buf") := ⟨⟨by decide, by decide⟩, by decide, by decide⟩
      have pins : (node.cell naming.word).pins = [naming.word node.net] := by
        rw [Node.cell, fanins_of_constant gate (by simp [same])]
        rfl
      dsimp only
      rw [pins, List.append_assoc, List.append_assoc, List.append_assoc, List.append_assoc]
      change tokens (lit "buf" ++ ' ' :: ' ' :: '(' :: ' ' :: (naming.emit node.net ++ ',' :: ' ' ::
        (constant ++ ' ' :: ')' :: ';' :: '\n' :: rest))) = _
      rw [word.tokens_append (stops_cons _ (.inl rfl)), tokens_space _ rfl, tokens_space _ rfl,
        tokens_mark _ rfl, tokens_space _ rfl, own.tokens (stops_cons _ (.inr rfl)),
        tokens_mark _ rfl, tokens_space _ rfl,
        (constantOf_isName same).tokens_append (stops_cons _ (.inl rfl)), tokens_space _ rfl,
        tokens_mark _ rfl, tokens_mark _ rfl, tokens_space _ rfl]
      rfl

theorem isCell_rewrittenCell : IsCell (rewrittenCell (node.cell naming.word)) := by
  have whole := isCell_cell gate legible
  rw [rewrittenCell]
  split
  · next constant same =>
      have word : IsName (lit "buf") := ⟨⟨by decide, by decide⟩, by decide, by decide⟩
      have noKeyword : lit "buf" ∉ keywords := by decide
      refine ⟨word, noKeyword, ?_⟩
      rw [List.forall_mem_append]
      exact ⟨whole.pins, by simpa using constantOf_isName same⟩
  · exact whole

end Line

section Read

variable {net : Network} {naming : Naming} (legible : ∀ name ∈ net.nets, naming.Legible name)
  (observed : net.pos ≠ []) (gates : ∀ node ∈ net.nodes, node.gate ∈ verifyLib)
  {title name : Text} (isName : IsName name)
  (opening : ∀ rest, tokens (title ++ '\n' :: rest) = lit "module" :: name :: ['('] :: tokens rest)
include legible observed gates isName opening

/-- The rewritten file is read as the rewritten module. -/
theorem read_rewritten :
    Structural.read (title ++ '\n' ::
        layBody naming.emit (fun node => modifyLine (layLine naming.emit node)) net) =
      some [rewritten (net.named naming.word name)] := by
  have pins (node : Node) (listed : node ∈ net.nodes) :
      ∀ name ∈ node.net :: node.fanins, naming.Legible name := fun name inside =>
    legible name (pins_subset listed inside)
  have read := read_layBody legible observed isName opening
    (fun node listed => tokens_modifyLine (gates node listed) (pins node listed))
    fun node listed => isCell_rewrittenCell (gates node listed) (pins node listed)
  rw [read, rewritten, Network.named, List.map_map]
  rfl

end Read

section Meaning

variable {value : Text → Bool} {output : Text} {ins : List Text}

/-- A gate that stays is a gate of the language with the same function. -/
theorem relates_kept {gate : MioGate} (own : Primitive) (listed : own ∈ Structural.gates)
    (named : own.name = gate.name) (noConstant : constantOf gate.name = none)
    (shape : gate.pins ≠ 0 ∧ (own.unary = true → gate.pins = 1))
    (same : ∀ values : List Bool, values.length = gate.pins →
      own.function values = gate.function fun pin => values.getD pin false)
    (size : ins.length = gate.pins) :
    (∃ relation, primitives (rewrittenCell ⟨gate.name, output :: ins⟩).name = some relation ∧
      relation ((rewrittenCell ⟨gate.name, output :: ins⟩).pins.map value)) ↔
        gate.Relates ((output :: ins).map value) := by
  have kept : rewrittenCell ⟨gate.name, output :: ins⟩ = ⟨gate.name, output :: ins⟩ := by
    rw [rewrittenCell, noConstant]
  have count : (ins.map value).length = gate.pins := by rw [List.length_map, size]
  have some_ : ins.map value ≠ [] := by
    rw [← List.length_pos_iff, count]
    exact Nat.pos_of_ne_zero shape.1
  rw [kept, ← named, primitives_eq listed]
  simp only [Option.some.injEq, exists_eq_left', List.map_cons]
  rw [Primitive.relates_cons, MioGate.relates_cons, count, same _ count]
  exact ⟨fun all => ⟨rfl, all.2.2⟩, fun all => ⟨some_, shape.2, all.2⟩⟩

/-- A constant becomes a buffer of its value. -/
theorem relates_constant {gate : MioGate} (constant : Text) {bit : Bool}
    (known : constantOf gate.name = some constant) (fixed : value constant = bit)
    (none : gate.pins = 0) (same : ∀ pins, gate.function pins = bit) (size : ins.length = gate.pins) :
    (∃ relation, primitives (rewrittenCell ⟨gate.name, output :: ins⟩).name = some relation ∧
      relation ((rewrittenCell ⟨gate.name, output :: ins⟩).pins.map value)) ↔
        gate.Relates ((output :: ins).map value) := by
  obtain rfl : ins = [] := List.length_eq_zero_iff.mp (size.trans none)
  have buffer : rewrittenCell ⟨gate.name, [output]⟩ = ⟨lit "buf", [output, constant]⟩ := by
    rw [rewrittenCell, known]
    rfl
  have cell : primitives (lit "buf") =
      some (Primitive.Relates ⟨lit "buf", true, fun ins => ins.all id⟩) :=
    @primitives_eq ⟨lit "buf", true, fun ins => ins.all id⟩ List.mem_cons_self
  rw [buffer, cell]
  simp [fixed, same, none]

/-- A rewritten gate relates its pins as the gate does. -/
theorem relates_rewritten {gate : MioGate} (listed : gate ∈ verifyLib) (constants : Constants value)
    (size : ins.length = gate.pins) :
    (∃ relation, primitives (rewrittenCell ⟨gate.name, output :: ins⟩).name = some relation ∧
      relation ((rewrittenCell ⟨gate.name, output :: ins⟩).pins.map value)) ↔
        gate.Relates ((output :: ins).map value) := by
  have one (f : List Bool → Bool) (g : (ℕ → Bool) → Bool)
      (same : ∀ a, f [a] = g fun pin => [a].getD pin false) (values : List Bool)
      (size : values.length = 1) : f values = g fun pin => values.getD pin false := by
    obtain ⟨a, rfl⟩ := List.length_eq_one_iff.mp size
    exact same a
  have two (f : List Bool → Bool) (g : (ℕ → Bool) → Bool)
      (same : ∀ a b, f [a, b] = g fun pin => [a, b].getD pin false) (values : List Bool)
      (size : values.length = 2) : f values = g fun pin => values.getD pin false := by
    obtain ⟨a, b, rfl⟩ := List.length_eq_two.mp size
    exact same a b
  simp only [verifyLib, List.mem_cons, List.not_mem_nil, or_false] at listed
  rcases listed with rfl | rfl | rfl | rfl | rfl | rfl | rfl | rfl | rfl | rfl
  · exact relates_kept ⟨lit "not", true, fun ins => !ins.all id⟩ (by simp [Structural.gates])
      rfl rfl (by decide) (one _ _ (by decide)) size
  · exact relates_kept ⟨lit "buf", true, fun ins => ins.all id⟩ (by simp [Structural.gates])
      rfl rfl (by decide) (one _ _ (by decide)) size
  · exact relates_kept ⟨lit "and", false, fun ins => ins.all id⟩ (by simp [Structural.gates])
      rfl rfl (by decide) (two _ _ (by decide)) size
  · exact relates_kept ⟨lit "or", false, fun ins => ins.any id⟩ (by simp [Structural.gates])
      rfl rfl (by decide) (two _ _ (by decide)) size
  · exact relates_kept ⟨lit "nand", false, fun ins => !ins.all id⟩
      (by simp [Structural.gates]) rfl rfl (by decide) (two _ _ (by decide)) size
  · exact relates_kept ⟨lit "nor", false, fun ins => !ins.any id⟩
      (by simp [Structural.gates]) rfl rfl (by decide) (two _ _ (by decide)) size
  · exact relates_kept ⟨lit "xor", false, fun ins => ins.foldl xor false⟩
      (by simp [Structural.gates]) rfl rfl (by decide) (two _ _ (by decide)) size
  · exact relates_kept ⟨lit "xnor", false, fun ins => !ins.foldl xor false⟩
      (by simp [Structural.gates]) rfl rfl (by decide) (two _ _ (by decide)) size
  · exact relates_constant (lit "1'b0") rfl constants.zero rfl (fun _ => rfl) size
  · exact relates_constant (lit "1'b1") rfl constants.one rfl (fun _ => rfl) size

variable {net : Network} (gates : ∀ node ∈ net.nodes, node.gate ∈ verifyLib)
  (word : Text → Text) (title : Text)
include gates

theorem rewritten_cellwise {value : Text → Bool} (constants : Constants value) :
    (∀ cell ∈ (rewritten (net.named word title)).cells,
        ∃ relation, primitives cell.name = some relation ∧ relation (cell.pins.map value)) ↔
      ∀ cell ∈ (net.named word title).cells,
        ∃ relation, verifyCells cell.name = some relation ∧ relation (cell.pins.map value) := by
  rw [rewritten, Network.named, List.forall_mem_map, List.forall_mem_map, List.forall_mem_map]
  refine forall₂_congr fun node listed => ?_
  have size : (node.fanins.map word).length = node.gate.pins := by rw [List.length_map, node.fits]
  have known : verifyCells (node.cell word).name = some node.gate.Relates :=
    verifyCells_eq (gates node listed)
  rw [known]
  simp only [Option.some.injEq, exists_eq_left']
  exact relates_rewritten (gates node listed) constants size

/-- Every cell of the rewritten module is a gate of the language. -/
theorem flat_rewritten : Flat primitives (rewritten (net.named word title)) := by
  have each {gate : MioGate} (listed : gate ∈ verifyLib) (pins : List Text) :
      primitives (rewrittenCell ⟨gate.name, pins⟩).name ≠ none := by
    simp only [verifyLib, List.mem_cons, List.not_mem_nil, or_false] at listed
    rcases listed with rfl | rfl | rfl | rfl | rfl | rfl | rfl | rfl | rfl | rfl <;>
      exact Option.isSome_iff_ne_none.mp rfl
  rw [Flat, rewritten, Network.named, List.forall_mem_map, List.forall_mem_map]
  exact fun node listed => each (gates node listed) _

/-- The rewritten module has the same meaning. -/
theorem allows_rewritten_iff (pins : List Bool) :
    Allows primitives (rewritten (net.named word title)) pins ↔
      Allows verifyCells (net.named word title) pins := by
  refine exists_congr fun value => and_congr_right fun constants => and_congr_left fun _ => ?_
  exact rewritten_cellwise gates word title constants

end Meaning

section Whole

/-- A text between two separators has no separator. -/
theorem single_of_mem_splitOn {row file : Text} (listed : row ∈ file.splitOn '\n') : '\n' ∉ row := by
  induction file generalizing row with
  | nil =>
      rw [List.splitOn_nil, List.mem_singleton] at listed
      simp [listed]
  | cons c file ih =>
      obtain ⟨head, tail, same⟩ := List.exists_cons_of_ne_nil (List.splitOn_ne_nil '\n' file)
      rw [same] at ih
      rw [List.splitOn_cons_eq_if_modifyHead, same] at listed
      split at listed
      · rcases List.mem_cons.mp listed with rfl | later
        · exact List.not_mem_nil
        · exact ih later
      · next other =>
          rcases List.mem_cons.mp listed with rfl | later
          · have rest := ih List.mem_cons_self
            simp only [beq_iff_eq] at other
            exact List.not_mem_cons_of_ne_of_not_mem (Ne.symm other) rest
          · exact ih (List.mem_cons_of_mem head later)

theorem single_of_mem_lines {row file : Text} (listed : row ∈ lines file) : '\n' ∉ row := by
  simp only [lines] at listed
  split at listed
  · exact single_of_mem_splitOn (List.mem_of_mem_dropLast listed)
  · exact single_of_mem_splitOn listed

/-- A row is a buffer of a constant or the old row. -/
theorem modifyLine_cases (row : Text) :
    (∃ rest, modifyLine row = lit "buf " ++ rest ∧ isGate row = false) ∨ modifyLine row = row := by
  rw [modifyLine]
  split
  · next zero =>
      refine .inl ⟨' ' :: '(' :: ' ' :: (outputName row ++ lit ", 1'b0 );"), ?_, ?_⟩
      · simp [lit]
      · rw [isGate, zero]
        decide
  · split
    · next one =>
        refine .inl ⟨' ' :: '(' :: ' ' :: (outputName row ++ lit ", 1'b1 );"), ?_, ?_⟩
        · simp [lit]
        · rw [isGate, one]
          decide
    · exact .inr rfl

theorem modifyLine_single_of_single {row : Text} (single : '\n' ∉ row) : '\n' ∉ modifyLine row := by
  have output : '\n' ∉ outputName row := fun inside =>
    single (List.mem_of_mem_take (List.mem_of_mem_drop inside))
  rw [modifyLine]
  split
  · simp [lit, output]
  · split
    · simp [lit, output]
    · exact single

/-- A rewritten row is rewritten no more. -/
theorem modifyLine_modifyLine (row : Text) : modifyLine (modifyLine row) = modifyLine row := by
  rcases modifyLine_cases row with ⟨rest, same, -⟩ | same
  · have start : (lit "buf " ++ rest).take 4 = lit "buf " := List.take_left' rfl
    rw [same, modifyLine, start, if_neg (by decide), if_neg (by decide)]
  · rw [same, same]

/-- A row counts as much as the row in its place. -/
theorem isGate_modifyLine (row : Text) : isGate (modifyLine row) = isGate row := by
  rcases modifyLine_cases row with ⟨rest, same, uncounted⟩ | same
  · have start : (lit "buf " ++ rest).take 4 = lit "buf " := List.take_left' rfl
    rw [same, uncounted, isGate, start]
    decide
  · rw [same]

/-- The rows of a rewritten file are the rewritten rows. -/
theorem lines_modifyVerilogFormat (file : Text) :
    lines (modifyVerilogFormat file) = (lines file).map modifyLine := by
  have split := lines_flatMap modifyLine (lines file) [] fun row listed =>
    modifyLine_single_of_single (single_of_mem_lines listed)
  rwa [List.append_nil, lines_nil, List.append_nil] at split

/-- A rewritten file is safe to rewrite. -/
theorem noShort_modifyVerilogFormat (file : Text) : NoShort (modifyVerilogFormat file) := by
  rw [NoShort, lines_modifyVerilogFormat, List.any_map, List.any_eq_false]
  intro row _
  rw [Function.comp_apply, isShort_of_kept (modifyLine_modifyLine row)]
  decide

/-- A second rewriting changes nothing. -/
theorem modifyVerilogFormat_idem (file : Text) :
    modifyVerilogFormat (modifyVerilogFormat file) = modifyVerilogFormat file := by
  rw [modifyVerilogFormat, lines_modifyVerilogFormat, List.flatMap_map]
  exact List.flatMap_congr fun row _ => by rw [modifyLine_modifyLine]

theorem ended_modifyVerilogFormat (file : Text) : Ended (modifyVerilogFormat file) := by
  rw [modifyVerilogFormat]
  apply ended_flatMap
  intro row _ c last
  rw [List.getLast?_concat, Option.mem_some_iff] at last
  subst last
  decide

/-- The rewriting keeps the number of gates. -/
theorem gatecnt_modifyVerilogFormat (file : Text) :
    gatecnt (modifyVerilogFormat file) = gatecnt file := by
  rw [gatecnt, lines_modifyVerilogFormat, List.countP_map]
  exact List.countP_congr fun row _ => by rw [Function.comp_apply, isGate_modifyLine]

end Whole

section Written

/-- No line of a node is broken. -/
theorem layLine_single {net : Network} {emit : Text → Text}
    (single : ∀ name ∈ net.nets, '\n' ∉ emit name) (gates : ∀ node ∈ net.nodes, node.gate ∈ verifyLib) :
    ∀ node ∈ net.nodes, '\n' ∉ layLine emit node := by
  intro node listed
  have start : ∀ name ∈ verifyLib.map MioGate.name, '\n' ∉ List.rightpad 4 ' ' name := by decide
  have fanins : '\n' ∉ node.fanins.flatMap fun fanin => lit ", " ++ emit fanin := by
    intro inside
    obtain ⟨fanin, own, later⟩ := List.mem_flatMap.mp inside
    rcases List.mem_append.mp later with gap | name
    · exact absurd gap (by decide)
    · exact single fanin (pins_subset listed (List.mem_cons_of_mem _ own)) name
  have output := single node.net (pins_subset listed List.mem_cons_self)
  simp only [layLine, List.mem_append, not_or]
  exact ⟨⟨start _ (List.mem_map_of_mem (gates node listed)), by decide⟩, output, fanins, by decide⟩

variable {net : Network} (legible : net.Legible)
include legible

theorem getName_single : '\n' ∉ getName net.name := (ownNaming_legible legible.name).single

/-- The first line of the file. -/
theorem title_single : '\n' ∉ lit "module " ++ getName net.name ++ lit " ( " := by
  have own := getName_single legible
  simp only [List.mem_append, not_or]
  exact ⟨⟨by decide, own⟩, by decide⟩

omit legible in
theorem title_plain : Plain (lit "module " ++ getName net.name ++ lit " ( ") := by
  intro c first
  rw [List.append_assoc] at first
  obtain rfl : 'm' = c := Option.some.inj first
  decide

theorem nets_single : ∀ name ∈ net.nets, '\n' ∉ getName name := fun name listed =>
  (ownNaming_nets legible name listed).single

/-- The rewritten text of a written network. -/
theorem modifyVerilogFormat_writeVerilog :
    modifyVerilogFormat (writeVerilog net) = lit "module " ++ getName net.name ++ lit " ( " ++
      '\n' :: layBody getName (fun node => modifyLine (layLine getName node)) net := by
  rw [writeVerilog_eq legible]
  exact modifyVerilogFormat_layBody (nets_single legible) (title_single legible)
    title_plain (layLine_single (nets_single legible) legible.gates)

/-- A written network is safe to rewrite. -/
theorem noShort_writeVerilog : NoShort (writeVerilog net) := by
  rw [writeVerilog_eq legible]
  exact noShort_layBody (nets_single legible) (title_single legible) title_plain
    (layLine_single (nets_single legible) legible.gates) fun node _ => isShort_layLine getName node

/-- The rewritten text is read as the rewritten module. -/
theorem read_modifyVerilogFormat :
    Structural.read (modifyVerilogFormat (writeVerilog net)) = some [rewritten net.module] := by
  rw [modifyVerilogFormat_writeVerilog legible]
  exact read_rewritten (ownNaming_nets legible) legible.observed legible.gates
    (isName_shown legible.name) (tokens_title legible.name)

theorem allows_rewritten_module (pins : List Bool) :
    Structural.Allows primitives (rewritten net.module) pins ↔ net.Allows pins :=
  (allows_rewritten_iff legible.gates _ _ pins).trans (allows_module_iff legible pins)

/-- The rewriting of a written network gives a module of gates of the language with the meaning of
the network. The number that is returned is that of its gates with two inputs. -/
theorem modifyVerilogFormat_sound :
    (∃ m, Structural.read (modifyVerilogFormat (writeVerilog net)) = some [m] ∧
      m.name = shown net.name ∧ m.ports = (net.pis ++ net.pos).map shown ∧ Flat primitives m ∧
      ∀ pins, Structural.Allows primitives m pins ↔ net.Allows pins) ∧
    gatecnt (writeVerilog net) = net.nodes.countP (fun node => node.gate.pins = 2) ∧
    gatecnt (modifyVerilogFormat (writeVerilog net)) = gatecnt (writeVerilog net) ∧
    modifyVerilogFormat (modifyVerilogFormat (writeVerilog net)) =
      modifyVerilogFormat (writeVerilog net) := by
  refine ⟨⟨rewritten net.module, read_modifyVerilogFormat legible, rfl, rfl,
    flat_rewritten legible.gates _ _, allows_rewritten_module legible⟩, ?_,
    gatecnt_modifyVerilogFormat _, modifyVerilogFormat_idem _⟩
  · rw [writeVerilog_eq legible, gatecnt_layBody (nets_single legible) (title_single legible)
      title_plain (layLine_single (nets_single legible) legible.gates)]
    exact List.countP_congr fun node listed => by rw [isGate_layLine (legible.gates node listed)]

end Written

/-- In a file with other modules the rewritten module computes the function of the network. -/
theorem computes_rewritten {net : Network} {name : Text} {n m : ℕ} {f : (Fin n → Bool) → Fin m → Bool}
    (realizes : net.Realizes name f) (plain : IsPlain name) (free : primitives name = none)
    {file : List ModuleDecl} (distinct : (file.map ModuleDecl.name).Nodup)
    (listed : rewritten net.module ∈ file) : Computes primitives file name f := by
  have named : (rewritten net.module).name = name := by
    rw [← realizes.name] at plain ⊢
    exact if_pos plain
  intro pins
  have flat : Holds primitives file (rewritten net.module).name pins ↔
      Structural.Allows primitives (rewritten net.module) pins :=
    holds_flat_iff (flat_rewritten realizes.legible.gates _ _) (named.symm ▸ free)
      (find_module distinct listed) pins
  rw [named] at flat
  exact flat.trans ((allows_rewritten_module realizes.legible pins).trans (realizes.computes pins))

theorem modifyVerilogFormat_sound_small :
    (∃ m, Structural.read (modifyVerilogFormat (writeVerilog smallNetwork)) = some [m] ∧
      m.name = lit "top" ∧ m.ports = [lit "\\a[0]", lit "b", lit "z", lit "y"] ∧ Flat primitives m ∧
      ∀ pins, Structural.Allows primitives m pins ↔ smallNetwork.Allows pins) ∧
    gatecnt (writeVerilog smallNetwork) =
      smallNetwork.nodes.countP (fun node => node.gate.pins = 2) ∧
    gatecnt (modifyVerilogFormat (writeVerilog smallNetwork)) = gatecnt (writeVerilog smallNetwork) ∧
    modifyVerilogFormat (modifyVerilogFormat (writeVerilog smallNetwork)) =
      modifyVerilogFormat (writeVerilog smallNetwork) :=
  modifyVerilogFormat_sound smallNetwork_legible

end LogicRegression.Verilog
