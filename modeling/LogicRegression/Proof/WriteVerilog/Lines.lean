import LogicRegression.Proof.WriteVerilog.Layout

namespace LogicRegression.WriteVerilog

open Text Structural

section Indented

/-- Every line of the text starts with a blank. -/
def Indented (text : Text) : Prop :=
  ∃ rows : List Text, text = (rows.flatMap fun row => row ++ ['\n']) ∧
    ∀ row ∈ rows, '\n' ∉ row ∧ row.head? = some ' '

/-- The text goes on in a line that has started with a blank. -/
def Continues (text : Text) : Prop :=
  ∀ start : Text, '\n' ∉ start → start.head? = some ' ' → Indented (start ++ text)

theorem indented_nil : Indented [] := ⟨[], rfl, by simp⟩

theorem Continues.word {text : Text} (continues : Continues text) {w : Text} (single : '\n' ∉ w) :
    Continues (w ++ text) := by
  intro start noBreak blank
  rw [← List.append_assoc]
  apply continues
  · simp [noBreak, single]
  · rw [List.head?_append, blank]
    rfl

/-- The line ends before the next one. -/
theorem Indented.continues {text : Text} (indented : Indented text) : Continues ('\n' :: text) := by
  intro start noBreak blank
  obtain ⟨rows, rfl, all⟩ := indented
  refine ⟨start :: rows, by simp, fun row listed => ?_⟩
  rcases List.mem_cons.mp listed with rfl | later
  · exact ⟨noBreak, blank⟩
  · exact all row later

theorem Continues.indented {text : Text} (continues : Continues text) {w : Text}
    (single : '\n' ∉ w) : Indented (' ' :: w ++ text) :=
  continues (' ' :: w) (by simp [single]) rfl

variable {emit : Text → Text}

/-- A list of names ends its lines with further blanks. -/
theorem continues_layNames {items : List (Text × Text)}
    (single : ∀ item ∈ items, '\n' ∉ emit item.1 ∧ '\n' ∉ item.2) (lineLength nameCounter : ℕ)
    {rest : Text} (continues : Continues rest) :
    Continues (layNames emit lineLength nameCounter items ++ rest) := by
  induction items generalizing lineLength nameCounter with
  | nil => exact continues
  | cons item items ih =>
      have later (length counter : ℕ) := ih (fun other inside =>
        single other (List.mem_cons_of_mem item inside)) length counter
      have own := single item List.mem_cons_self
      have one (length counter : ℕ) : Continues (emit item.1 ++ (item.2 ++
          (layNames emit length counter items ++ rest))) :=
        ((later length counter).word own.2).word own.1
      have blank (length counter : ℕ) : Continues (' ' :: emit item.1 ++ item.2 ++
          layNames emit length counter items ++ rest) := by
        rw [List.append_assoc, List.append_assoc]
        exact (one length counter).word (w := [' ']) (by decide)
      rw [layNames]
      split
      · rw [List.append_assoc]
        have inner : Indented (lit "   " ++ (' ' :: emit item.1 ++ item.2 ++
            layNames emit (3 + ((getName item.1).length + 2)) 1 items ++ rest)) :=
          (blank _ _).indented (w := lit "  ") (by decide)
        exact inner.continues
      · exact blank _ _

theorem single_separated {names : List Text} (single : ∀ name ∈ names, '\n' ∉ emit name) :
    ∀ item ∈ separated names, '\n' ∉ emit item.1 ∧ '\n' ∉ item.2 := by
  intro item listed
  refine ⟨single item.1 (mem_of_mem_separated listed), ?_⟩
  fun_induction separated names with
  | case1 => exact absurd listed List.not_mem_nil
  | case2 name =>
      rw [List.mem_singleton.mp listed]
      simp
  | case3 name rest _ ih =>
      rcases List.mem_cons.mp listed with rfl | later
      · simp
      · exact ih (fun other inside => single other (List.mem_cons_of_mem name inside)) later

/-- The lines of a declaration come before the lines of the rest. -/
theorem indented_declaration (keyword : Text) (solid : '\n' ∉ keyword) {names : List Text}
    (single : ∀ name ∈ names, '\n' ∉ emit name) (start : ℕ) {rest : Text} (indented : Indented rest) :
    Indented (' ' :: keyword ++ layNames emit start 0 (separated names) ++ lit ";\n" ++ rest) := by
  have last : Continues (lit ";\n" ++ rest) :=
    indented.continues.word (w := [';']) (by decide)
  rw [List.append_assoc, List.append_assoc]
  exact (continues_layNames (single_separated single) start 0 last).indented solid

end Indented

section Network

variable {emit : Text → Text} {net : Network} (single : ∀ name ∈ net.nets, '\n' ∉ emit name)
include single

/-- Every line of the header but its first one starts with a blank. -/
theorem indented_layHead : Indented (layHead emit net) := by
  have inputs : ∀ name ∈ net.pis, '\n' ∉ emit name := fun name listed =>
    single name (pis_subset listed)
  have outputs : ∀ name ∈ net.pos, '\n' ∉ emit name := fun name listed =>
    single name (pos_subset listed)
  have wires : ∀ name ∈ net.wires, '\n' ∉ emit name := fun name listed =>
    single name (wires_subset listed)
  have last : Indented (layWires emit net) := by
    rw [layWires]
    split
    · have rows := indented_declaration (lit " wire") (by decide) wires 4 indented_nil
      rwa [List.append_nil] at rows
    · exact indented_nil
  have second : Indented (layOutputs emit net ++ layWires emit net) :=
    indented_declaration (lit " output") (by decide) outputs 5 last
  have first : Indented (layInputs emit net ++ (layOutputs emit net ++ layWires emit net)) := by
    rw [layInputs]
    split
    · exact indented_declaration (lit " input ") (by decide) inputs 10 second
    · exact second
  have closing : Continues (lit "  );\n" ++
      (layInputs emit net ++ (layOutputs emit net ++ layWires emit net))) :=
    first.continues.word (w := lit "  );") (by decide)
  have list := continues_layNames (single_separated outputs) 3 0 closing
  have ports : Continues (layPorts emit net ++
      (layInputs emit net ++ (layOutputs emit net ++ layWires emit net))) := by
    rw [layPorts, List.append_assoc, List.append_assoc]
    split
    · rw [List.append_assoc]
      have gap : Continues (lit ",\n   " ++ (layNames emit 3 0 (separated net.pos) ++ (lit "  );\n" ++
          (layInputs emit net ++ (layOutputs emit net ++ layWires emit net))))) :=
        (list.indented (w := lit "  ") (by decide)).continues.word (w := [',']) (by decide)
      exact continues_layNames (single_separated inputs) 3 0 gap
    · exact list
  exact ports.indented (w := lit "  ") (by decide)

/-- The lines of a file: its title, the rows of the header, one line for each node and three lines
at the end. -/
theorem layBody_rows :
    ∃ rows : List Text, (∀ row ∈ rows, '\n' ∉ row ∧ row.head? = some ' ') ∧
      ∀ (title : Text) (line : Node → Text), title ++ '\n' :: layBody emit line net =
        (title :: (rows ++ (net.nodes.map line ++ [lit "endmodule", [], []]))).flatMap
          fun row => row ++ ['\n'] := by
  obtain ⟨rows, same, all⟩ := indented_layHead single
  refine ⟨rows, all, fun title line => ?_⟩
  rw [layBody, same, List.flatMap_cons, List.flatMap_append, List.flatMap_append, List.flatMap_map,
    List.append_assoc]
  rfl

omit single in
/-- No row has a line break of its own. -/
theorem rows_single {rows : List Text} (all : ∀ row ∈ rows, '\n' ∉ row ∧ row.head? = some ' ')
    {title : Text} (noBreak : '\n' ∉ title) {line : Node → Text}
    (solid : ∀ node ∈ net.nodes, '\n' ∉ line node) :
    ∀ row ∈ title :: (rows ++ (net.nodes.map line ++ [lit "endmodule", [], []])), '\n' ∉ row := by
  rw [List.forall_mem_cons, List.forall_mem_append, List.forall_mem_append, List.forall_mem_map]
  exact ⟨noBreak, fun row listed => (all row listed).1, solid, by decide⟩

end Network

end LogicRegression.WriteVerilog
