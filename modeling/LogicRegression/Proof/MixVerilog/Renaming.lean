import LogicRegression.Proof.MixVerilog.Meaning
import LogicRegression.Proof.MixVerilog.Suffix

namespace LogicRegression.MixVerilog

open Text Structural WriteVerilog

section Erase

/-- No occurrence of the suffix reaches over the end of a name. -/
theorem removeMain_append (first : Text) {rest : Text} (stops : Stops rest) :
    removeMain (first ++ rest) = removeMain first ++ removeMain rest := by
  rw [removeMain_eq, removeMain_eq, removeMain_eq]
  apply Token.erase_append
  refine .inl fun c start inside => ?_
  have other : ∀ c ∈ lit "main", isSpace c = false ∧ isMark c = false := by decide
  obtain ⟨noSpace, noMark⟩ := other c inside
  rcases stops c start with space | mark
  · exact absurd (noSpace.symm.trans space) (by decide)
  · exact absurd (noMark.symm.trans mark) (by decide)

/-- A text without an underscore stays before the rest. -/
theorem removeMain_glue (glue : Text) (clean : '_' ∉ glue) (rest : Text) :
    removeMain (glue ++ rest) = glue ++ removeMain rest := by
  induction glue with
  | nil => rfl
  | cons c glue ih =>
      have absent : ¬ '_' :: lit "main" <+: c :: (glue ++ rest) := by
        rintro ⟨after, same⟩
        exact clean ((List.cons.inj same).1 ▸ List.mem_cons_self)
      have later := ih fun inside => clean (List.mem_cons_of_mem c inside)
      rw [removeMain_eq] at later ⊢
      rw [List.cons_append, Token.erase_cons absent, later, removeMain_eq]
      rfl

/-- The removal goes through a text row by row. -/
theorem removeMain_rows (rows : List Text) :
    removeMain (rows.flatMap fun row => row ++ ['\n']) =
      rows.flatMap fun row => removeMain row ++ ['\n'] := by
  induction rows with
  | nil => rfl
  | cons row rows ih =>
      have glue := removeMain_glue ['\n'] (by decide) (rows.flatMap fun row => row ++ ['\n'])
      have stops : Stops (['\n'] ++ rows.flatMap fun row => row ++ ['\n']) :=
        stops_cons _ (.inl rfl)
      rw [List.flatMap_cons, List.append_assoc, removeMain_append row stops, glue, ih,
        List.flatMap_cons, List.append_assoc]

end Erase

section Layout

/-- The written names without the suffix. -/
def restored (name : Text) : Text := removeMain (getName name)

/-- The layout stays, the names lose the suffix. -/
theorem removeMain_layNames {items : List (Text × Text)}
    (comma : ∀ item ∈ items, item.2 = [] ∨ item.2 = [',']) (lineLength nameCounter : ℕ) {rest : Text}
    (stops : Stops rest) :
    removeMain (layNames getName lineLength nameCounter items ++ rest) =
      layNames restored lineLength nameCounter items ++ removeMain rest := by
  induction items generalizing lineLength nameCounter with
  | nil => rfl
  | cons item items ih =>
      have later := ih fun other inside => comma other (List.mem_cons_of_mem item inside)
      have one (length counter : ℕ) : removeMain (' ' :: getName item.1 ++ item.2 ++
          layNames getName length counter items ++ rest) = ' ' :: restored item.1 ++ item.2 ++
            layNames restored length counter items ++ removeMain rest := by
        have after := stops_layNames getName length counter items stops
        have name : Stops (item.2 ++ (layNames getName length counter items ++ rest)) := by
          rcases comma item List.mem_cons_self with none | one
          · rwa [none]
          · rw [one]
            exact stops_cons _ (.inr rfl)
        have glue : '_' ∉ item.2 := by
          rcases comma item List.mem_cons_self with none | one
          · simp [none]
          · simp [one]
        have blank := removeMain_glue [' '] (by decide)
          (getName item.1 ++ (item.2 ++ (layNames getName length counter items ++ rest)))
        rw [removeMain_append _ name, removeMain_glue _ glue, later] at blank
        simpa [restored] using blank
      rw [layNames, layNames]
      split
      · have gap := removeMain_glue (lit "\n   ") (by decide) (' ' :: getName item.1 ++ item.2 ++
          layNames getName (3 + ((getName item.1).length + 2)) 1 items ++ rest)
        rw [one] at gap
        simpa using gap
      · exact one _ _

/-- A list of names between other texts. -/
theorem removeMain_list (start close : Text) (clean : '_' ∉ start) (stops : Stops close)
    (closed : '_' ∉ close) (some_ : close ≠ []) (names : List Text) (column : ℕ) (rest : Text) :
    removeMain (start ++ layNames getName column 0 (separated names) ++ close ++ rest) =
      start ++ layNames restored column 0 (separated names) ++ close ++ removeMain rest := by
  have after : Stops (close ++ rest) := by
    obtain ⟨c, more, rfl⟩ := List.exists_cons_of_ne_nil some_
    exact stops_cons _ (stops c rfl)
  rw [List.append_assoc, List.append_assoc, removeMain_glue start clean,
    removeMain_layNames (fun item listed => separated_comma listed) column 0 after,
    removeMain_glue close closed]
  simp only [List.append_assoc]

theorem removeMain_layLine {node : Node} (gate : node.gate ∈ verifyLib) :
    removeMain (layLine getName node) = layLine restored node := by
  have word : '_' ∉ List.rightpad 4 ' ' node.gate.name ++ lit " ( " := by
    have all : ∀ name ∈ verifyLib.map MioGate.name, '_' ∉ List.rightpad 4 ' ' name ++ lit " ( " := by
      decide
    exact all _ (List.mem_map_of_mem gate)
  have close : Stops (lit " );") := stops_cons (c := ' ') _ (.inl rfl)
  have fanins (fanins : List Text) :
      Stops (fanins.flatMap (fun fanin => lit ", " ++ getName fanin) ++ lit " );") ∧
        removeMain (fanins.flatMap (fun fanin => lit ", " ++ getName fanin) ++ lit " );") =
          fanins.flatMap (fun fanin => lit ", " ++ restored fanin) ++ lit " );" := by
    induction fanins with
    | nil => exact ⟨close, by decide⟩
    | cons fanin fanins ih =>
        refine ⟨stops_cons (c := ',') _ (.inr rfl), ?_⟩
        rw [List.flatMap_cons, List.append_assoc, List.append_assoc,
          removeMain_glue (lit ", ") (by decide), removeMain_append _ ih.1, ih.2, List.flatMap_cons,
          List.append_assoc, List.append_assoc]
        rfl
  obtain ⟨stops, rest⟩ := fanins node.fanins
  rw [layLine, removeMain_glue _ word, removeMain_append _ stops, rest]
  rfl

/-- The body of the file with its names restored. -/
theorem removeMain_layBody {net : Network} (gates : ∀ node ∈ net.nodes, node.gate ∈ verifyLib) :
    removeMain (layBody getName (layLine getName) net) = layBody restored (layLine restored) net := by
  have semicolon : Stops (lit ";\n") := stops_cons (c := ';') _ (.inr rfl)
  have nodes (nodes : List Node) (listed : nodes ⊆ net.nodes) (rest : Text) :
      removeMain (nodes.flatMap (fun node => layLine getName node ++ ['\n']) ++ rest) =
        nodes.flatMap (fun node => layLine restored node ++ ['\n']) ++ removeMain rest := by
    induction nodes with
    | nil => rfl
    | cons node nodes ih =>
        have later := ih fun _ inside => listed (List.mem_cons_of_mem node inside)
        have stops : Stops (['\n'] ++ (nodes.flatMap (fun node => layLine getName node ++ ['\n']) ++
            rest)) := stops_cons _ (.inl rfl)
        rw [List.flatMap_cons, List.append_assoc, List.append_assoc, removeMain_append _ stops,
          removeMain_layLine (gates node (listed List.mem_cons_self)),
          removeMain_glue ['\n'] (by decide), later, List.flatMap_cons, List.append_assoc,
          List.append_assoc]
  have wires (rest : Text) : removeMain (layWires getName net ++ rest) =
      layWires restored net ++ removeMain rest := by
    rw [layWires, layWires]
    split
    · exact removeMain_list _ _ (by decide) semicolon (by decide) (by decide) _ _ rest
    · rfl
  have outputs (rest : Text) : removeMain (layOutputs getName net ++ rest) =
      layOutputs restored net ++ removeMain rest :=
    removeMain_list _ _ (by decide) semicolon (by decide) (by decide) _ _ rest
  have inputs (rest : Text) : removeMain (layInputs getName net ++ rest) =
      layInputs restored net ++ removeMain rest := by
    rw [layInputs, layInputs]
    split
    · exact removeMain_list _ _ (by decide) semicolon (by decide) (by decide) _ _ rest
    · rfl
  have last (rest : Text) : removeMain (layNames getName 3 0 (separated net.pos) ++ lit "  );\n" ++
      rest) = layNames restored 3 0 (separated net.pos) ++ lit "  );\n" ++ removeMain rest :=
    removeMain_list [] _ (by decide) (stops_cons (c := ' ') _ (.inl rfl)) (by decide)
      (by decide) _ _ rest
  have ports (rest : Text) : removeMain (layPorts getName net ++ rest) =
      layPorts restored net ++ removeMain rest := by
    rw [layPorts, layPorts]
    split
    · have first := removeMain_list [] (lit ",\n   ") (by decide)
        (stops_cons (c := ',') _ (.inr rfl)) (by decide) (by decide) net.pis 3
        (layNames getName 3 0 (separated net.pos) ++ lit "  );\n" ++ rest)
      rw [last] at first
      simpa using first
    · exact last rest
  have ending : removeMain (lit "endmodule\n\n\n") = lit "endmodule\n\n\n" := by decide
  rw [layBody, layBody, layHead, layHead]
  simp only [List.append_assoc]
  rw [removeMain_glue (lit "   ") (by decide), ports, inputs, outputs, wires,
    nodes _ (List.Subset.refl _), ending]

end Layout

section Names

variable {n m : ℕ} {io : IoNames n m} {net : Network}

/-- The terminals of a network are the names of the signals, the outputs with the suffix, and the
suffix occurs nowhere else. No other net has the name of an output. -/
structure Restorable (io : IoNames n m) (net : Network) : Prop where
  names : ∀ name ∈ io.names, ¬ lit "_main" <:+: name
  inputs : net.pis = List.ofFn io.input
  outputs : net.pos = List.ofFn fun k => io.output k ++ lit "_main"
  inner : ∀ name ∈ net.nets, name ∈ net.pos ∨ ¬ lit "_main" <:+: name
  unused : ∀ k, io.output k ∉ net.nets

theorem input_mem (io : IoNames n m) (j : Fin n) : io.input j ∈ io.names := List.getElem_mem _

theorem output_mem_names (io : IoNames n m) (k : Fin m) : io.output k ∈ io.names := List.getElem_mem _

variable (plain : PlainNames io) (restorable : Restorable io net)
include plain restorable

/-- The word of an output. -/
theorem removeMain_output (k : Fin m) :
    removeMain (shown (io.output k ++ lit "_main")) = io.output k := by
  have own := plain.plain _ (output_mem_names io k)
  have suffixed := isPlain_suffix (io.words _ (output_mem_names io k)) own
    (show ((lit "_main").all fun c => c.isAlphanum || c = '_') = true by decide) (by decide)
  rw [shown, if_pos suffixed, removeMain_suffix]
  exact removeMain_eq_self_iff.mpr (restorable.names _ (output_mem_names io k))

/-- An output loses the suffix, every other net keeps its name. -/
theorem removeMain_cases {name : Text} (listed : name ∈ net.nets) :
    (∃ k, name = io.output k ++ lit "_main" ∧ removeMain (shown name) = io.output k) ∨
      removeMain (shown name) = shown name := by
  rcases restorable.inner name listed with output | clean
  · rw [restorable.outputs, List.mem_ofFn] at output
    obtain ⟨k, rfl⟩ := output
    exact .inl ⟨k, rfl, removeMain_output plain restorable k⟩
  · right
    rw [removeMain_eq_self_iff, shown]
    split
    · exact clean
    · rw [List.infix_cons_iff, not_or]
      refine ⟨?_, clean⟩
      rintro ⟨after, same⟩
      exact absurd (List.cons.inj same).1 (by decide)

/-- The naming of the renamed file. -/
def restoredNaming : Naming := ⟨restored, fun name => removeMain (shown name)⟩

/-- Each restored name is one token. -/
theorem restoredNaming_legible (legible : net.Legible) :
    ∀ name ∈ net.nets, restoredNaming.Legible name := by
  intro name listed
  refine ⟨?_, ?_⟩
  · change IsName (removeMain (shown name))
    rcases removeMain_cases plain restorable listed with ⟨k, -, same⟩ | same
    · rw [same]
      exact isName_io plain (output_mem_names io k)
    · rw [same]
      exact isName_shown (legible.names name listed)
  · have stops : Stops [' '] := stops_cons _ (.inl rfl)
    change removeMain (getName name) = removeMain (shown name) ∨
      removeMain (getName name) = removeMain (shown name) ++ [' ']
    rw [getName_eq]
    split
    · exact .inl (by rw [List.append_nil])
    · exact .inr (removeMain_append _ stops)

/-- The restored names keep the nets apart. -/
theorem restored_faithful : Faithful net fun name => removeMain (shown name) where
  injective := by
    have output {k : Fin m} {name : Text} (listed : name ∈ net.nets) :
        io.output k ≠ shown name := by
      intro same
      have own : shown (io.output k) = io.output k := if_pos (plain.plain _ (output_mem_names io k))
      exact restorable.unused k (shown_injective (own.trans same) ▸ listed)
    intro first inFirst second inSecond same
    dsimp only at same
    rcases removeMain_cases plain restorable inFirst with ⟨k, rfl, one⟩ | one
    · rcases removeMain_cases plain restorable inSecond with ⟨l, rfl, two⟩ | two
      · rw [one, two] at same
        rw [same]
      · exact absurd (one.symm.trans (same.trans two)) (output inSecond)
    · rcases removeMain_cases plain restorable inSecond with ⟨l, rfl, two⟩ | two
      · exact absurd (two.symm.trans (same.symm.trans one)) (output inFirst)
      · exact shown_injective (one.symm.trans (same.trans two))
  noConstant name listed := by
    rcases removeMain_cases plain restorable listed with ⟨k, -, same⟩ | same
    · have own := plain.plain _ (output_mem_names io k)
      rw [same]
      refine ⟨fun equal => ?_, fun equal => ?_⟩
      · rw [equal] at own
        exact absurd own (by decide)
      · rw [equal] at own
        exact absurd own (by decide)
    · rw [same]
      exact (shown_faithful net).noConstant name listed

/-- The terminals of the renamed module are the names of the signals. -/
theorem restored_terminals :
    (net.pis.map fun name => removeMain (shown name)) = List.ofFn io.input ∧
      (net.pos.map fun name => removeMain (shown name)) = List.ofFn io.output := by
  refine ⟨?_, ?_⟩
  · rw [restorable.inputs, List.map_ofFn]
    congr 1
    funext j
    have own : shown (io.input j) = io.input j := if_pos (plain.plain _ (input_mem io j))
    rw [Function.comp_apply, own]
    exact removeMain_eq_self_iff.mpr (restorable.names _ (input_mem io j))
  · rw [restorable.outputs, List.map_ofFn]
    congr 1
    exact funext fun k => removeMain_output plain restorable k

end Names

section Mixed

variable {n m : ℕ}

/-- Without any fault the file is the original one with its names restored. -/
theorem mixCircuit_layout {net : Network} (legible : net.Legible) {files : Text → Option Text}
    {ioNames : List Text} {inputNum outputNum : ℕ}
    (correct : ∀ i < outputNum, faultStatus files i = (false, false))
    (original : files (lit "beyond_original_circuit.v") = some (writeVerilog net)) :
    mixCircuit files ioNames inputNum outputNum =
      lit "module top (" ++ '\n' :: layBody restored (layLine restored) net := by
  have noFault : ((List.range outputNum).all fun i => faultStatus files i = (false, false)) =
      true := by
    rw [List.all_eq_true]
    exact fun i inside => decide_eq_true (correct i (List.mem_range.mp inside))
  obtain ⟨rows, all, same⟩ := layBody_rows (Verilog.nets_single legible)
  have single := rows_single all (Verilog.title_single legible)
    (Verilog.layLine_single (Verilog.nets_single legible) legible.gates)
  have whole := same (lit "module " ++ getName net.name ++ lit " ( ") (layLine getName)
  have read := lines_flatMap (fun row => row) _ [] single
  rw [List.append_nil, ← whole, ← writeVerilog_eq legible, List.map_id', lines_nil,
    List.append_nil] at read
  have body := (List.cons.inj (same [] (layLine getName))).2
  rw [mixCircuit, if_pos noFault, original, Option.getD_some, read, List.drop_one, List.tail_cons,
    ← removeMain_layBody legible.gates, body]
  exact congrArg (lit "module top (" ++ '\n' :: ·) (removeMain_rows _).symm

/-- The only module of the renamed file. -/
def restoredModule (net : Network) : ModuleDecl :=
  Verilog.rewritten (net.named restoredNaming.word (lit "top"))

theorem plainTitle : Verilog.Plain (lit "module top (") := by
  intro c first
  obtain rfl : 'm' = c := Option.some.inj first
  decide

section Restored

variable {io : IoNames n m} (plain : PlainNames io) {net : Network} (restorable : Restorable io net)
include plain restorable

theorem restored_single (legible : net.Legible) : ∀ name ∈ net.nets, '\n' ∉ restored name :=
  fun name listed => (restoredNaming_legible plain restorable legible name listed).single

/-- The renamed file is safe to rewrite. -/
theorem noShort_restored (legible : net.Legible) {files : Text → Option Text}
    (correct : ∀ i < m, faultStatus files i = (false, false))
    (original : files (lit "beyond_original_circuit.v") = some (writeVerilog net)) :
    Verilog.NoShort (mixCircuit files io.names n m) := by
  have single := restored_single plain restorable legible
  rw [mixCircuit_layout legible correct original]
  exact Verilog.noShort_layBody single (by decide) plainTitle
    (Verilog.layLine_single single legible.gates) fun node _ => Verilog.isShort_layLine restored node

theorem read_restored (legible : net.Legible) {files : Text → Option Text}
    (correct : ∀ i < m, faultStatus files i = (false, false))
    (original : files (lit "beyond_original_circuit.v") = some (writeVerilog net)) :
    Structural.read (Verilog.modifyVerilogFormat (mixCircuit files io.names n m)) =
      some [restoredModule net] := by
  have names := restoredNaming_legible plain restorable legible
  have isName : IsName (lit "top") := by decide
  have opening (rest : Text) : tokens (lit "module top (" ++ '\n' :: rest) =
      lit "module" :: lit "top" :: ['('] :: tokens rest := by
    have word : tokens (lit "module top (") = [lit "module", lit "top", ['(']] := by decide
    rw [tokens_append_cons _ _ rfl, word]
    rfl
  have single := restored_single plain restorable legible
  have text : Verilog.modifyVerilogFormat (mixCircuit files io.names n m) = lit "module top (" ++
      '\n' :: layBody restored (fun node => Verilog.modifyLine (layLine restored node)) net := by
    rw [mixCircuit_layout legible correct original]
    exact Verilog.modifyVerilogFormat_layBody single (by decide) plainTitle
      (Verilog.layLine_single single legible.gates)
  rw [text]
  exact Verilog.read_rewritten names legible.observed legible.gates isName opening

/-- The renamed module keeps the meaning of the network. -/
theorem restoredModule_computes {main : (Fin n → Bool) → Fin m → Bool}
    (realizes : net.Realizes (lit "main_circuit") main) :
    Computes primitives [restoredModule net] (lit "top") main := by
  have distinct : ([restoredModule net].map ModuleDecl.name).Nodup := List.nodup_singleton _
  intro pins
  have flat : Holds primitives [restoredModule net] (restoredModule net).name pins ↔
      Structural.Allows primitives (restoredModule net) pins :=
    holds_flat_iff (Verilog.flat_rewritten realizes.legible.gates _ _)
      (primitives_free (c := 't') rfl (by decide))
      (find_module distinct List.mem_cons_self) pins
  exact flat.trans ((Verilog.allows_rewritten_iff realizes.legible.gates _ _ pins).trans
    ((allows_named_iff realizes.legible.gates (restored_faithful plain restorable) _ pins).trans
      (realizes.computes pins)))

end Restored

/-- Without any fault the file that is flattened has one module `top` with the ports of the circuit,
and this module computes the function of the original circuit. -/
theorem mixCircuit_restored (io : IoNames n m) (plain : PlainNames io) (files : Text → Option Text)
    (correct : ∀ i < m, faultStatus files i = (false, false)) (net : Network)
    (restorable : Restorable io net)
    (original : files (lit "beyond_original_circuit.v") = some (writeVerilog net))
    (main : (Fin n → Bool) → Fin m → Bool) (realizes : net.Realizes (lit "main_circuit") main) :
    ∃ top, Structural.read (Verilog.modifyVerilogFormat (mixCircuit files io.names n m)) =
        some [top] ∧ top.name = lit "top" ∧ top.inputs = List.ofFn io.input ∧
      top.outputs = List.ofFn io.output ∧ Computes primitives [top] (lit "top") main := by
  have terminals := restored_terminals plain restorable
  exact ⟨restoredModule net, read_restored plain restorable realizes.legible correct original, rfl,
    terminals.1, terminals.2, restoredModule_computes plain restorable realizes⟩

/-- Only the original circuit is there. -/
def restoredFiles (name : Text) : Option Text :=
  if name = lit "beyond_original_circuit.v" then some (writeVerilog mixedNetwork) else none

theorem mixedNetwork_restorable : Restorable mixedNames mixedNetwork where
  names := by decide
  inputs := rfl
  outputs := rfl
  inner := by decide +kernel
  unused := by decide +kernel

theorem mixCircuit_restored_sample :
    ∃ top, Structural.read (Verilog.modifyVerilogFormat
        (mixCircuit restoredFiles mixedNames.names 2 3)) = some [top] ∧
      top.name = lit "top" ∧ top.inputs = [lit "a", lit "b"] ∧
      top.outputs = [lit "x", lit "y", lit "z"] ∧ Computes primitives [top] (lit "top") mixedMain :=
  mixCircuit_restored mixedNames ⟨by decide, by decide⟩ restoredFiles (by decide) mixedNetwork
    mixedNetwork_restorable (if_pos rfl) mixedMain mixedNetwork_realizes.1

end Mixed

end LogicRegression.MixVerilog
