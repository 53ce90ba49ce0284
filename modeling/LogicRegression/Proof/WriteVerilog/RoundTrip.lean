import LogicRegression.Proof.WriteVerilog.Layout

namespace LogicRegression.WriteVerilog

open Text Structural

variable {naming : Naming}

section Lists

/-- What is written before the next name separates it from the name before. -/
theorem stops_layNames (emit : Text → Text) (lineLength nameCounter : ℕ) (items : List (Text × Text))
    {rest : Text} (stops : Stops rest) :
    Stops (layNames emit lineLength nameCounter items ++ rest) := by
  cases items with
  | nil => exact stops
  | cons item items =>
      rw [layNames]
      split
      · exact stops_cons _ (.inl rfl)
      · exact stops_cons _ (.inl rfl)

theorem separated_comma {names : List Text} {item : Text × Text}
    (listed : item ∈ separated names) : item.2 = [] ∨ item.2 = [','] := by
  fun_induction separated names with
  | case1 => exact absurd listed List.not_mem_nil
  | case2 name =>
      rw [List.mem_singleton.mp listed]
      exact .inl rfl
  | case3 name rest _ ih =>
      rcases List.mem_cons.mp listed with rfl | later
      · exact .inr rfl
      · exact ih later

/-- The layout of the lines does not change the tokens of the names. -/
theorem tokens_layNames {items : List (Text × Text)}
    (legible : ∀ item ∈ items, naming.Legible item.1)
    (comma : ∀ item ∈ items, item.2 = [] ∨ item.2 = [',']) (lineLength nameCounter : ℕ) {rest : Text}
    (stops : Stops rest) :
    tokens (layNames naming.emit lineLength nameCounter items ++ rest) =
      items.flatMap (fun item => naming.word item.1 :: tokens item.2) ++ tokens rest := by
  induction items generalizing lineLength nameCounter with
  | nil => rfl
  | cons item items ih =>
      have later := ih (fun other inside => legible other (List.mem_cons_of_mem item inside))
        fun other inside => comma other (List.mem_cons_of_mem item inside)
      have one (length counter : ℕ) :
          tokens (' ' :: naming.emit item.1 ++ item.2 ++ layNames naming.emit length counter items ++
            rest) = naming.word item.1 :: tokens item.2 ++
              (items.flatMap (fun item => naming.word item.1 :: tokens item.2) ++ tokens rest) := by
        have own := legible item List.mem_cons_self
        have after := stops_layNames naming.emit length counter items stops
        rw [List.append_assoc, List.append_assoc, List.cons_append, tokens_space _ rfl]
        rcases comma item List.mem_cons_self with none | one
        · rw [none, List.nil_append, own.tokens after, later, tokens_nil]
          rfl
        · rw [one, List.singleton_append, own.tokens (stops_cons _ (.inr rfl)), tokens_mark _ rfl,
            later, tokens_mark _ rfl, tokens_nil]
          rfl
      rw [layNames, List.flatMap_cons, List.append_assoc (naming.word item.1 :: tokens item.2)]
      split
      · rw [List.append_assoc, show lit "\n   " = ['\n', ' ', ' ', ' '] from rfl]
        simp only [List.cons_append, List.nil_append]
        rw [tokens_space _ rfl, tokens_space _ rfl, tokens_space _ rfl, tokens_space _ rfl]
        exact one _ _
      · exact one _ _

/-- The tokens of a list are its names with commas between them. -/
theorem separated_tokens (word : Text → Text) (names : List Text) :
    (separated names).flatMap (fun item => word item.1 :: tokens item.2) =
      (names.map word).intersperse [','] := by
  fun_induction separated names with
  | case1 => rfl
  | case2 name => simp
  | case3 name rest more ih =>
      obtain ⟨next, rest, rfl⟩ := List.exists_cons_of_ne_nil more
      rw [List.flatMap_cons, ih, tokens_mark _ rfl, tokens_nil]
      rfl

/-- A list of names is written between other texts. -/
theorem tokens_list {names : List Text} (legible : ∀ name ∈ names, naming.Legible name)
    (start : ℕ) {rest : Text} (stops : Stops rest) :
    tokens (layNames naming.emit start 0 (separated names) ++ rest) =
      (names.map naming.word).intersperse [','] ++ tokens rest := by
  rw [tokens_layNames (fun item listed => legible item.1 (mem_of_mem_separated listed))
    (fun item listed => separated_comma listed) start 0 stops, separated_tokens]

/-- Two lists of names follow one another. -/
theorem intersperse_append {first second : List Text} (more : first ≠ []) (other : second ≠ []) :
    (first ++ second).intersperse [','] =
      first.intersperse [','] ++ [','] :: second.intersperse [','] := by
  induction first with
  | nil => exact absurd rfl more
  | cons name first ih =>
      cases first with
      | nil =>
          obtain ⟨next, second, rfl⟩ := List.exists_cons_of_ne_nil other
          rfl
      | cons next first =>
          have later := ih (by simp)
          change name :: [','] :: (next :: first ++ second).intersperse [','] = _
          rw [later]
          rfl

/-- A declaration is a keyword and a list. -/
theorem tokens_declaration (keyword gap : Text) (word : IsName keyword)
    (blank : gap = [] ∨ gap = [' ']) {names : List Text}
    (legible : ∀ name ∈ names, naming.Legible name) (start : ℕ) (rest : Text) :
    tokens (lit "  " ++ keyword ++ gap ++ layNames naming.emit start 0 (separated names) ++
        lit ";\n" ++ rest) =
      [keyword :: (names.map naming.word).intersperse [',']].flatMap (fun inner => inner ++ [[';']]) ++
        tokens rest := by
  have ending : tokens (lit ";\n" ++ rest) = [';'] :: tokens rest := by
    change tokens (';' :: '\n' :: rest) = _
    rw [tokens_mark _ rfl, tokens_space _ rfl]
  have stops : Stops (lit ";\n" ++ rest) := stops_cons (c := ';') ('\n' :: rest) (.inr rfl)
  have after := stops_layNames naming.emit start 0 (separated names) stops
  have gapped : tokens (keyword ++ (gap ++ (layNames naming.emit start 0 (separated names) ++
      (lit ";\n" ++ rest)))) =
        keyword :: tokens (layNames naming.emit start 0 (separated names) ++ (lit ";\n" ++ rest)) := by
    rcases blank with rfl | rfl
    · exact word.tokens_append after
    · rw [List.singleton_append, word.tokens_append (stops_cons _ (.inl rfl)), tokens_space _ rfl]
  rw [List.append_assoc, List.append_assoc, List.append_assoc, List.append_assoc]
  change tokens (' ' :: ' ' :: (keyword ++ _)) = _
  rw [tokens_space _ rfl, tokens_space _ rfl, gapped, tokens_list legible start stops, ending]
  simp

theorem tokens_replicate (count : ℕ) (rest : Text) :
    tokens (List.replicate count ' ' ++ rest) = tokens rest := by
  induction count with
  | zero => rfl
  | succ count ih => exact (tokens_space _ rfl).trans ih

end Lists

section Nodes

theorem verifyLib_isName {gate : MioGate} (listed : gate ∈ verifyLib) : IsName gate.name := by
  have all : ∀ name ∈ verifyLib.map MioGate.name,
      (∀ c ∈ name, isSpace c = false ∧ isMark c = false) ∧ name ≠ [] ∧ name ≠ lit "endmodule" := by
    decide
  obtain ⟨chars, nonempty, noEnd⟩ := all _ (List.mem_map_of_mem listed)
  exact ⟨⟨nonempty, fun c inside => (chars c inside).1⟩, fun c inside => (chars c inside).2, noEnd⟩

theorem verifyLib_noKeyword {gate : MioGate} (listed : gate ∈ verifyLib) :
    gate.name ∉ keywords := by
  have all : ∀ name ∈ verifyLib.map MioGate.name, name ∉ keywords := by decide
  exact all _ (List.mem_map_of_mem listed)

/-- The cell of a node: its net is the first pin. -/
def Node.cell (word : Text → Text) (node : Node) : Cell :=
  ⟨node.gate.name, (node.net :: node.fanins).map word⟩

theorem isCell_cell {node : Node} (gate : node.gate ∈ verifyLib)
    (legible : ∀ name ∈ node.net :: node.fanins, naming.Legible name) :
    IsCell (node.cell naming.word) := by
  refine ⟨verifyLib_isName gate, verifyLib_noKeyword gate, fun pin listed => ?_⟩
  obtain ⟨name, inside, rfl⟩ := List.mem_map.mp listed
  exact (legible name inside).isName

/-- The tokens of the pins of a node. -/
theorem tokens_pins {name : Text} {fanins : List Text}
    (legible : ∀ other ∈ name :: fanins, naming.Legible other) (rest : Text) :
    tokens (naming.emit name ++ (fanins.flatMap (fun fanin => lit ", " ++ naming.emit fanin) ++
        lit " );") ++ '\n' :: rest) =
      ((name :: fanins).map naming.word).intersperse [','] ++ [')'] :: [';'] :: tokens rest := by
  induction fanins generalizing name with
  | nil =>
      rw [List.append_assoc]
      change tokens (naming.emit name ++ ' ' :: ')' :: ';' :: '\n' :: rest) = _
      rw [(legible name List.mem_cons_self).tokens (stops_cons _ (.inl rfl)), tokens_space _ rfl,
        tokens_mark _ rfl, tokens_mark _ rfl, tokens_space _ rfl]
      rfl
  | cons fanin fanins ih =>
      have later := ih fun other inside => legible other (List.mem_cons_of_mem name inside)
      rw [List.flatMap_cons, List.append_assoc, List.append_assoc]
      rw [List.append_assoc, List.append_assoc] at later
      change tokens (naming.emit name ++ ',' :: ' ' :: (naming.emit fanin ++ _ ++ _)) = _
      rw [(legible name List.mem_cons_self).tokens (stops_cons _ (.inr rfl)), tokens_mark _ rfl,
        tokens_space _ rfl, List.append_assoc (naming.emit fanin), later]
      rfl

/-- The line of a node has the tokens of its cell. -/
theorem tokens_layLine {node : Node} (gate : node.gate ∈ verifyLib)
    (legible : ∀ name ∈ node.net :: node.fanins, naming.Legible name) (rest : Text) :
    tokens (layLine naming.emit node ++ '\n' :: rest) =
      cellTokens (node.cell naming.word) ++ [';'] :: tokens rest := by
  have gap (count : ℕ) (after : Text) : Stops (List.replicate count ' ' ++ ' ' :: after) := by
    cases count with
    | zero => exact stops_cons _ (.inl rfl)
    | succ count => exact stops_cons _ (.inl rfl)
  rw [layLine, List.append_assoc, List.append_assoc, List.rightpad, List.append_assoc,
    show lit " ( " = [' ', '(', ' '] from rfl]
  simp only [List.cons_append, List.nil_append]
  rw [(verifyLib_isName gate).tokens_append (gap _ _), tokens_replicate, tokens_space _ rfl,
    tokens_mark _ rfl, tokens_space _ rfl, tokens_pins legible, cellTokens, Node.cell]
  simp

/-- Lines with the tokens of some cells follow one another. -/
theorem tokens_lines_cells {line : Node → Text} {cell : Node → Cell} {nodes : List Node}
    (each : ∀ node ∈ nodes, ∀ rest,
      tokens (line node ++ '\n' :: rest) = cellTokens (cell node) ++ [';'] :: tokens rest)
    (rest : Text) :
    tokens (nodes.flatMap (fun node => line node ++ ['\n']) ++ rest) =
      ((nodes.map cell).map cellTokens).flatMap (fun inner => inner ++ [[';']]) ++ tokens rest := by
  induction nodes with
  | nil => rfl
  | cons node nodes ih =>
      have later := ih fun other inside => each other (List.mem_cons_of_mem node inside)
      rw [List.flatMap_cons, List.append_assoc, List.append_assoc, List.singleton_append,
        each node List.mem_cons_self, later, List.map_cons, List.map_cons, List.flatMap_cons]
      simp

end Nodes

section Network

variable {net : Network} (legible : ∀ name ∈ net.nets, naming.Legible name)
  (observed : net.pos ≠ [])

/-- The module that a naming and a title describe. -/
def Network.named (net : Network) (word : Text → Text) (title : Text) : ModuleDecl where
  name := title
  ports := (net.pis ++ net.pos).map word
  inputs := net.pis.map word
  outputs := net.pos.map word
  wires := net.wires.map word
  cells := net.nodes.map (Node.cell word)

/-- The declarations of the header without their semicolons. -/
def declarationTokens (net : Network) (word : Text → Text) : List (List Text) :=
  (if net.pis ≠ [] then [lit "input" :: (net.pis.map word).intersperse [',']] else []) ++
    ([lit "output" :: (net.pos.map word).intersperse [',']] ++
      if net.wires ≠ [] then [lit "wire" :: (net.wires.map word).intersperse [',']] else [])

include legible

theorem tokens_layPorts (observed : net.pos ≠ []) (rest : Text) :
    tokens (layPorts naming.emit net ++ rest) =
      ((net.pis ++ net.pos).map naming.word).intersperse [','] ++ [')'] :: [';'] :: tokens rest := by
  have last : tokens (lit "  );\n" ++ rest) = [')'] :: [';'] :: tokens rest := by
    change tokens (' ' :: ' ' :: ')' :: ';' :: '\n' :: rest) = _
    rw [tokens_space _ rfl, tokens_space _ rfl, tokens_mark _ rfl, tokens_mark _ rfl,
      tokens_space _ rfl]
  have stops : Stops (lit "  );\n" ++ rest) := stops_cons (c := ' ') _ (.inl rfl)
  have second := tokens_list (fun name listed => legible name (pos_subset listed)) 3 stops
  rw [last] at second
  rw [layPorts, List.append_assoc, List.append_assoc]
  by_cases none : net.pis = []
  · rw [if_neg (by simpa using none), List.nil_append, second, none]
    rfl
  · have gap : Stops (lit ",\n   " ++ (layNames naming.emit 3 0 (separated net.pos) ++
        (lit "  );\n" ++ rest))) := stops_cons (c := ',') _ (.inr rfl)
    have blank (more : Text) : tokens (lit ",\n   " ++ more) = [','] :: tokens more := by
      change tokens (',' :: '\n' :: ' ' :: ' ' :: ' ' :: more) = _
      rw [tokens_mark _ rfl, tokens_space _ rfl, tokens_space _ rfl, tokens_space _ rfl,
        tokens_space _ rfl]
    rw [if_pos none, List.append_assoc, tokens_list (fun name listed =>
      legible name (pis_subset listed)) 3 gap, blank, second, List.map_append,
      intersperse_append (by simpa using none) (by simpa using observed)]
    simp

theorem tokens_layInputs (rest : Text) :
    tokens (layInputs naming.emit net ++ rest) =
      (if net.pis ≠ [] then [lit "input" :: (net.pis.map naming.word).intersperse [',']]
        else []).flatMap (fun inner => inner ++ [[';']]) ++ tokens rest := by
  rw [layInputs]
  split
  · exact tokens_declaration (lit "input") [' ']
      ⟨⟨by decide, by decide⟩, by decide, by decide⟩ (.inr rfl)
      (fun name listed => legible name (pis_subset listed)) 10 rest
  · rfl

theorem tokens_layOutputs (rest : Text) :
    tokens (layOutputs naming.emit net ++ rest) =
      [lit "output" :: (net.pos.map naming.word).intersperse [',']].flatMap
        (fun inner => inner ++ [[';']]) ++ tokens rest :=
  tokens_declaration (lit "output") []
    ⟨⟨by decide, by decide⟩, by decide, by decide⟩ (.inl rfl)
    (fun name listed => legible name (pos_subset listed)) 5 rest

theorem tokens_layWires (rest : Text) :
    tokens (layWires naming.emit net ++ rest) =
      (if net.wires ≠ [] then [lit "wire" :: (net.wires.map naming.word).intersperse [',']]
        else []).flatMap (fun inner => inner ++ [[';']]) ++ tokens rest := by
  rw [layWires]
  split
  · exact tokens_declaration (lit "wire") []
      ⟨⟨by decide, by decide⟩, by decide, by decide⟩ (.inl rfl)
      (fun name listed => legible name (wires_subset listed)) 4 rest
  · rfl

/-- The header has the rest of the port list and the declarations. -/
theorem tokens_layHead (observed : net.pos ≠ []) (rest : Text) :
    tokens (layHead naming.emit net ++ rest) =
      ((net.pis ++ net.pos).map naming.word).intersperse [','] ++ [')'] :: [';'] ::
        ((declarationTokens net naming.word).flatMap (fun inner => inner ++ [[';']]) ++
          tokens rest) := by
  rw [layHead, List.append_assoc, List.append_assoc, List.append_assoc, List.append_assoc]
  change tokens (' ' :: ' ' :: ' ' :: (layPorts naming.emit net ++ _)) = _
  rw [tokens_space _ rfl, tokens_space _ rfl, tokens_space _ rfl, tokens_layPorts legible observed,
    tokens_layInputs legible, tokens_layOutputs legible, tokens_layWires legible, declarationTokens,
    List.flatMap_append, List.flatMap_append]
  simp only [List.append_assoc]

theorem named_isName {names : List Text} (listed : names ⊆ net.nets) :
    ∀ name ∈ names.map naming.word, IsName name := by
  intro name inside
  obtain ⟨raw, member, rfl⟩ := List.mem_map.mp inside
  exact (legible raw (listed member)).isName

theorem inner_declarationTokens : ∀ inner ∈ declarationTokens net naming.word, Inner inner := by
  have declaration {keyword : Text} (word : keyword ≠ [';'] ∧ keyword ≠ lit "endmodule")
      {names : List Text} (listed : names ⊆ net.nets) :
      Inner (keyword :: (names.map naming.word).intersperse [',']) :=
    List.forall_mem_cons.mpr ⟨word, inner_names (named_isName legible listed)⟩
  intro inner inside
  rcases List.mem_append.mp inside with input | rest
  · split at input
    · rw [List.mem_singleton.mp input]
      exact declaration (by decide) pis_subset
    · exact absurd input List.not_mem_nil
  · rcases List.mem_append.mp rest with output | wire
    · rw [List.mem_singleton.mp output]
      exact declaration (by decide) pos_subset
    · split at wire
      · rw [List.mem_singleton.mp wire]
        exact declaration (by decide) wires_subset
      · exact absurd wire List.not_mem_nil

/-- The declarations are read one after another; one without names is left out. -/
theorem map_declarationTokens :
    (declarationTokens net naming.word).map statementOf =
      (if net.pis ≠ [] then [.input (net.pis.map naming.word)] else []) ++
        ([.output (net.pos.map naming.word)] ++
          if net.wires ≠ [] then [.wire (net.wires.map naming.word)] else []) := by
  have read {kind : List Text → Statement} {names : List Text} (listed : names ⊆ net.nets) :
      declared kind ((names.map naming.word).intersperse [',']) = kind (names.map naming.word) :=
    declared_names (unmarked_names (named_isName legible listed))
  have input : statementOf (lit "input" :: (net.pis.map naming.word).intersperse [',']) =
      .input (net.pis.map naming.word) := read pis_subset
  have output : statementOf (lit "output" :: (net.pos.map naming.word).intersperse [',']) =
      .output (net.pos.map naming.word) := read pos_subset
  have wire : statementOf (lit "wire" :: (net.wires.map naming.word).intersperse [',']) =
      .wire (net.wires.map naming.word) := read wires_subset
  rw [declarationTokens, List.map_append, List.map_append, List.map_singleton, output]
  congr 1
  · split
    · exact congrArg (fun statement => [statement]) input
    · rfl
  · congr 1
    split
    · exact congrArg (fun statement => [statement]) wire
    · rfl

/-- A file with a title line is read as one module with the cells of its lines. -/
theorem read_layBody (observed : net.pos ≠ []) {title name : Text} (isName : IsName name)
    (opening : ∀ rest, tokens (title ++ '\n' :: rest) = lit "module" :: name :: ['('] :: tokens rest)
    {line : Node → Text} {cell : Node → Cell}
    (each : ∀ node ∈ net.nodes, ∀ rest,
      tokens (line node ++ '\n' :: rest) = cellTokens (cell node) ++ [';'] :: tokens rest)
    (sound : ∀ node ∈ net.nodes, IsCell (cell node)) :
    Structural.read (title ++ '\n' :: layBody naming.emit line net) =
      some [{ net.named naming.word name with cells := net.nodes.map cell }] := by
  have cells : ∀ other ∈ net.nodes.map cell, IsCell other := by
    intro other listed
    obtain ⟨node, inside, rfl⟩ := List.mem_map.mp listed
    exact sound node inside
  have ending : tokens (lit "endmodule\n\n\n") = [lit "endmodule"] := by decide
  have header : Inner (lit "module" :: name :: ['('] ::
      (((net.pis ++ net.pos).map naming.word).intersperse [','] ++ [[')']])) :=
    List.forall_mem_cons.mpr ⟨by decide, List.forall_mem_cons.mpr ⟨isName.inner, inner_brackets
      (named_isName legible (List.append_subset.mpr ⟨pis_subset, pos_subset⟩))⟩⟩
  have list : statements (title ++ '\n' :: layBody naming.emit line net) =
      .module name ((net.pis ++ net.pos).map naming.word) ::
        ((declarationTokens net naming.word).map statementOf ++
          ((net.nodes.map cell).map .cell ++ [.endmodule])) := by
    have first (rest : List Text) : pieces [] (lit "module" :: name :: ['('] ::
        (((net.pis ++ net.pos).map naming.word).intersperse [','] ++ [')'] :: [';'] :: rest)) =
          (lit "module" :: name :: ['('] ::
            (((net.pis ++ net.pos).map naming.word).intersperse [','] ++ [[')']])) ::
              pieces [] rest := by
      have split := pieces_statement header rest
      simpa using split
    rw [statements, opening, layBody, tokens_layHead legible observed, tokens_lines_cells each, ending,
      first, pieces_flatMap (inner_declarationTokens legible), List.map_cons,
      List.map_append (f := statementOf), statements_cells cells, statementOf_module
        (unmarked_names (named_isName legible (List.append_subset.mpr ⟨pis_subset, pos_subset⟩)))]
    rfl
  have body (m : ModuleDecl) : assemble (some m) ((net.nodes.map cell).map .cell ++ [.endmodule]) =
      some [{ m with cells := m.cells ++ net.nodes.map cell }] := by
    rw [assemble_cells]
    rfl
  rw [Structural.read, list, map_declarationTokens legible]
  generalize net.nodes.map cell = cells at body
  by_cases inputs : net.pis = []
  · by_cases wires : net.wires = []
    · simp [assemble, inputs, wires, body, Network.named]
    · simp [assemble, inputs, wires, body, Network.named]
  · by_cases wires : net.wires = []
    · simp [assemble, inputs, wires, body, Network.named]
    · simp [assemble, inputs, wires, body, Network.named]

end Network

section Own

/-- The module that the writer describes. -/
def Network.module (net : Network) : ModuleDecl := net.named shown (shown net.name)

theorem ownNaming_nets {net : Network} (legible : net.Legible) :
    ∀ name ∈ net.nets, ownNaming.Legible name := fun name listed =>
  ownNaming_legible (legible.names name listed)

theorem tokens_title {name : Text} (isName : IsName name) (rest : Text) :
    tokens (lit "module " ++ getName name ++ lit " ( " ++ '\n' :: rest) =
      lit "module" :: shown name :: ['('] :: tokens rest := by
  have word : IsName (lit "module") := ⟨⟨by decide, by decide⟩, by decide, by decide⟩
  rw [List.append_assoc, List.append_assoc]
  change tokens (lit "module" ++ ' ' :: (getName name ++ ' ' :: '(' :: ' ' :: '\n' :: rest)) = _
  rw [word.tokens_append (stops_cons _ (.inl rfl)), tokens_space _ rfl]
  have stops : Stops (' ' :: '(' :: ' ' :: '\n' :: rest) := stops_cons _ (.inl rfl)
  have own := (ownNaming_legible isName).tokens stops
  rw [tokens_space _ rfl, tokens_mark _ rfl, tokens_space _ rfl, tokens_space _ rfl] at own
  exact congrArg _ own

/-- The text of a mapped network is read back as its module. -/
theorem read_writeVerilog (net : Network) (legible : net.Legible) :
    Structural.read (writeVerilog net) = some [net.module] := by
  have names := ownNaming_nets legible
  have pins (node : Node) (listed : node ∈ net.nodes) :
      ∀ name ∈ node.net :: node.fanins, ownNaming.Legible name := fun name inside =>
    names name (pins_subset listed inside)
  have read := read_layBody names legible.observed (isName_shown legible.name)
    (tokens_title legible.name)
    (fun node listed => tokens_layLine (legible.gates node listed) (pins node listed))
    fun node listed => isCell_cell (legible.gates node listed) (pins node listed)
  rw [writeVerilog_eq legible]
  exact read

end Own

end LogicRegression.WriteVerilog
