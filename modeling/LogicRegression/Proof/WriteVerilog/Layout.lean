import LogicRegression.Construction.WriteVerilog
import LogicRegression.Library.Structural

namespace LogicRegression.WriteVerilog

open Text Structural

section Names

/-- The characters of a plain name are letters, digits and underscores. -/
def IsPlain (name : Text) : Prop :=
  (name ≠ ['0'] ∧ name ≠ ['1']) ∧ name.all fun c => c.isAlphanum || c = '_'

instance (name : Text) : Decidable (IsPlain name) := inferInstanceAs (Decidable (_ ∧ _))

/-- The name in the file: an escaped name keeps its backslash. -/
def shown (name : Text) : Text := if IsPlain name then name else '\\' :: name

theorem getName_eq (name : Text) :
    getName name = shown name ++ if IsPlain name then [] else [' '] := by
  by_cases plain : IsPlain name
  · rw [shown, if_pos plain, if_pos plain, List.append_nil]
    exact if_pos plain
  · rw [shown, if_neg plain, if_neg plain]
    exact if_neg plain

theorem char_of_isPlain {name : Text} (plain : IsPlain name) {c : Char} (inside : c ∈ name) :
    c.isAlphanum ∨ c = '_' := by
  simpa using List.all_eq_true.mp plain.2 c inside

/-- Different names stay different in the file. -/
theorem shown_injective : Function.Injective shown := by
  have escape {first second : Text} (plain : IsPlain first) : first ≠ '\\' :: second := by
    rintro rfl
    exact absurd (char_of_isPlain plain List.mem_cons_self) (by decide)
  intro first second same
  rw [shown, shown] at same
  split at same
  · next plain =>
      split at same
      · exact same
      · exact absurd same (escape plain)
  · split at same
    · next plain => exact absurd same.symm (escape plain)
    · exact (List.cons.inj same).2

theorem isName_shown {name : Text} (isName : IsName name) : IsName (shown name) := by
  rw [shown]
  split
  · exact isName
  · refine ⟨⟨by simp, ?_⟩, ?_, ?_⟩
    · exact List.forall_mem_cons.mpr ⟨by decide, isName.word.solid⟩
    · exact List.forall_mem_cons.mpr ⟨by decide, isName.plain⟩
    · intro same
      exact absurd (List.cons.inj same).1 (by decide)

/-- A way to write the names of a network: the written text and the word in it. -/
structure Naming where
  emit : Text → Text
  word : Text → Text

/-- The text of a name is one word, which a blank may follow. -/
structure Naming.Legible (naming : Naming) (name : Text) : Prop where
  isName : IsName (naming.word name)
  written : naming.emit name = naming.word name ∨ naming.emit name = naming.word name ++ [' ']

/-- The naming of the writer. -/
def ownNaming : Naming := ⟨getName, shown⟩

theorem ownNaming_legible {name : Text} (isName : IsName name) : ownNaming.Legible name where
  isName := isName_shown isName
  written := by
    change getName name = shown name ∨ getName name = shown name ++ [' ']
    rw [getName_eq]
    split
    · exact .inl (List.append_nil _)
    · exact .inr rfl

variable {naming : Naming} {name : Text}

/-- A written name is one token. -/
theorem Naming.Legible.tokens (legible : naming.Legible name) {rest : Text} (stops : Stops rest) :
    tokens (naming.emit name ++ rest) = naming.word name :: tokens rest := by
  rcases legible.written with same | same
  · rw [same, legible.isName.tokens_append stops]
  · rw [same, List.append_assoc, List.singleton_append,
      legible.isName.tokens_append (stops_cons rest (.inl rfl)), tokens_space rest rfl]

/-- A written name has no line break. -/
theorem Naming.Legible.single (legible : naming.Legible name) : '\n' ∉ naming.emit name := by
  have word : '\n' ∉ naming.word name := fun inside =>
    absurd (legible.isName.word.solid '\n' inside) (by decide)
  rcases legible.written with same | same
  · rwa [same]
  · rw [same]
    simp [word]

end Names

section Layout

variable (emit : Text → Text)

/-- The layout of the writer with other texts for the names. -/
def layNames : ℕ → ℕ → List (Text × Text) → Text
  | _, _, [] => []
  | lineLength, nameCounter, (name, comma) :: rest =>
      let addedLength := (getName name).length + 2
      if nameCounter ≠ 0 ∧ lineLength + addedLength + 3 > lineLengthMax then
        lit "\n   " ++ (' ' :: emit name ++ comma ++ layNames (3 + addedLength) 1 rest)
      else ' ' :: emit name ++ comma ++ layNames (lineLength + addedLength) (nameCounter + 1) rest

/-- The rest of the port list. -/
def layPorts (net : Network) : Text :=
  (if net.pis ≠ [] then layNames emit 3 0 (separated net.pis) ++ lit ",\n   " else []) ++
    (layNames emit 3 0 (separated net.pos) ++ lit "  );\n")

def layInputs (net : Network) : Text :=
  if net.pis ≠ [] then lit "  input " ++ layNames emit 10 0 (separated net.pis) ++ lit ";\n" else []

def layOutputs (net : Network) : Text :=
  lit "  output" ++ layNames emit 5 0 (separated net.pos) ++ lit ";\n"

def layWires (net : Network) : Text :=
  if net.wires ≠ [] then lit "  wire" ++ layNames emit 4 0 (separated net.wires) ++ lit ";\n" else []

/-- The header after its first line. -/
def layHead (net : Network) : Text :=
  lit "   " ++ (layPorts emit net ++ (layInputs emit net ++ (layOutputs emit net ++ layWires emit net)))

/-- The line of a node. -/
def layLine (node : Node) : Text :=
  List.rightpad 4 ' ' node.gate.name ++ lit " ( " ++ (emit node.net ++
    (node.fanins.flatMap (fun fanin => lit ", " ++ emit fanin) ++ lit " );"))

/-- The file after its first line. -/
def layBody (line : Node → Text) (net : Network) : Text :=
  layHead emit net ++ (net.nodes.flatMap (fun node => line node ++ ['\n']) ++ lit "endmodule\n\n\n")

theorem layNames_getName (lineLength nameCounter : ℕ) (items : List (Text × Text)) :
    layNames getName lineLength nameCounter items = writeNames lineLength nameCounter items := by
  induction items generalizing lineLength nameCounter with
  | nil => rfl
  | cons item items ih => rw [layNames, writeNames, ih, ih]

end Layout

section Network

/-- The nets of a network: those of its terminals and those of its nodes. -/
def Network.nets (net : Network) : List Text :=
  net.pis ++ (net.pos ++ net.nodes.flatMap fun node => node.net :: node.fanins)

/-- The names of a network are words without marks, its outputs are not inputs as well, and its
gates are those of the library file. -/
structure Network.Legible (net : Network) : Prop where
  name : IsName net.name
  names : ∀ name ∈ net.nets, IsName name
  observed : net.pos ≠ []
  noFeedthrough : ∀ po ∈ net.pos, po ∉ net.pis
  library : net.library = verifyLib
  gates : ∀ node ∈ net.nodes, node.gate ∈ verifyLib

variable {net : Network}

theorem pis_subset : net.pis ⊆ net.nets := List.subset_append_left _ _

theorem pos_subset : net.pos ⊆ net.nets :=
  List.Subset.trans (List.subset_append_left _ _) (List.subset_append_right _ _)

theorem pins_subset {node : Node} (listed : node ∈ net.nodes) :
    node.net :: node.fanins ⊆ net.nets := fun _ inside =>
  List.mem_append_right _ (List.mem_append_right _ (List.mem_flatMap.mpr ⟨node, listed, inside⟩))

theorem wires_subset : net.wires ⊆ net.nets := by
  intro wire listed
  obtain ⟨node, inside, rfl⟩ := List.mem_map.mp listed
  exact pins_subset (List.mem_filter.mp inside).1 List.mem_cons_self

/-- The mapper has its own names for constants only. -/
theorem verifyLib_noConst {gate : MioGate} (listed : gate ∈ verifyLib) :
    ¬ (gate.name = lit "_const0_" ∨ gate.name = lit "_const1_") := by
  have all : ∀ name ∈ verifyLib.map MioGate.name,
      ¬ (name = lit "_const0_" ∨ name = lit "_const1_") := by decide
  exact all _ (List.mem_map_of_mem listed)

theorem mem_of_mem_separated {names : List Text} {item : Text × Text}
    (listed : item ∈ separated names) : item.1 ∈ names := by
  fun_induction separated names with
  | case1 => exact absurd listed List.not_mem_nil
  | case2 name =>
      rw [List.mem_singleton.mp listed]
      exact List.mem_singleton_self name
  | case3 name rest _ ih =>
      rcases List.mem_cons.mp listed with rfl | later
      · exact List.mem_cons_self
      · exact List.mem_cons_of_mem name (ih later)

/-- No output is skipped. -/
theorem writePos_eq (legible : net.Legible) (start : ℕ) :
    writePos net start = layNames getName start 0 (separated net.pos) := by
  have kept : (separated net.pos).filter (fun item => item.1 ∉ net.pis) = separated net.pos :=
    List.filter_eq_self.mpr fun item listed =>
      decide_eq_true (legible.noFeedthrough item.1 (mem_of_mem_separated listed))
  rw [writePos, kept, layNames_getName]

theorem nodeText_eq (legible : net.Legible) {node : Node} (listed : node ∈ net.nodes) :
    nodeText (readGateNameMax net.library) node = layLine getName node ++ ['\n'] := by
  have width : readGateNameMax net.library = 4 := by
    rw [legible.library]
    rfl
  rw [nodeText, if_neg fun const => verifyLib_noConst (legible.gates node listed) const.2, width,
    layLine]
  simp only [List.append_assoc]

/-- The written file is the layout with the naming of the writer. -/
theorem writeVerilog_eq (legible : net.Legible) :
    writeVerilog net = lit "module " ++ getName net.name ++ lit " ( " ++
      '\n' :: layBody getName (layLine getName) net := by
  have objects : writeObjects net =
      net.nodes.flatMap fun node => layLine getName node ++ ['\n'] :=
    List.flatMap_congr fun node listed => nodeText_eq legible listed
  have head : writeHead net = lit "module " ++ getName net.name ++ lit " ( " ++
      '\n' :: layHead getName net := by
    rw [writeHead, layHead, layPorts, layInputs, layOutputs, layWires, if_pos legible.observed,
      if_pos legible.observed, writePos_eq legible, writePos_eq legible, writePis, writePis, writeWires]
    simp only [List.append_assoc, layNames_getName]
    rfl
  rw [writeVerilog, writeVerilogInt, head, objects, layBody]
  simp only [List.append_assoc, List.cons_append]
  rfl

end Network

end LogicRegression.WriteVerilog
