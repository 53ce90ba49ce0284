import LogicRegression.Library.BlifModel
import LogicRegression.Proof.Testbench.Rows
import LogicRegression.Proof.Verilog.Hierarchy
import LogicRegression.Proof.WriteVerilog.Completeness

namespace LogicRegression.Main

open Text Structural WriteVerilog

section Names

/-- The words that the netlist language keeps for itself. -/
def reservedWords : List Text :=
  [lit "always", lit "and", lit "assign", lit "automatic", lit "begin", lit "buf", lit "bufif0",
    lit "bufif1", lit "case", lit "casex", lit "casez", lit "cell", lit "cmos", lit "config",
    lit "deassign", lit "default", lit "defparam", lit "design", lit "disable", lit "dff",
    lit "edge", lit "else", lit "end", lit "endcase", lit "endconfig", lit "endfunction",
    lit "endgenerate", lit "endmodule", lit "endprimitive", lit "endspecify", lit "endtable",
    lit "endtask", lit "event", lit "for", lit "force", lit "forever", lit "fork",
    lit "function", lit "generate", lit "genvar", lit "highz0", lit "highz1", lit "if",
    lit "ifnone", lit "incdir", lit "include", lit "initial", lit "inout", lit "input",
    lit "instance", lit "integer", lit "join", lit "large", lit "liblist", lit "library",
    lit "localparam", lit "macromodule", lit "medium", lit "module", lit "nand", lit "negedge",
    lit "nmos", lit "nor", lit "noshowcancelled", lit "not", lit "notif0", lit "notif1",
    lit "or", lit "output", lit "parameter", lit "pmos", lit "posedge", lit "primitive",
    lit "pull0", lit "pull1", lit "pulldown", lit "pullup", lit "pulsestyle_ondetect",
    lit "pulsestyle_onevent", lit "rcmos", lit "real", lit "realtime", lit "reg", lit "release",
    lit "repeat", lit "rnmos", lit "rpmos", lit "rtran", lit "rtranif0", lit "rtranif1",
    lit "scalared", lit "showcancelled", lit "signed", lit "small", lit "specify",
    lit "specparam", lit "strong0", lit "strong1", lit "supply0", lit "supply1", lit "table",
    lit "task", lit "time", lit "tran", lit "tranif0", lit "tranif1", lit "tri", lit "tri0",
    lit "tri1", lit "triand", lit "trior", lit "trireg", lit "unsigned", lit "use",
    lit "vectored", lit "wait", lit "wand", lit "weak0", lit "weak1", lit "while", lit "wire",
    lit "wor", lit "xnor", lit "xor"]

/-- The words that the testbench declares. -/
def benchWords : List Text :=
  [lit "tmp", lit "fp_r", lit "fp_w", lit "i", lit "temp", lit "main_1"]

/-- A name that every tool takes as it is. -/
structure IsSignal (name : Text) : Prop where
  isName : IsName name
  plain : IsPlain name
  noInner : ¬ IsInner name
  free : name ∉ reservedWords

end Names

section Contracts

variable {n m : ℕ}

/-- A module whose terminals have different names and that has outputs. -/
structure Mappable (name : Text) (inputs outputs : List Text) (n m : ℕ) : Prop where
  title : IsSignal name
  signals : ∀ net ∈ inputs ++ outputs, IsSignal net
  distinct : (inputs ++ outputs).Nodup
  width : inputs.length = n
  depth : outputs.length = m
  observed : 0 < m

/-- A mapped network with these terminals computes this function. -/
structure Maps (net : Network) (name : Text) (inputs outputs : List Text)
    (f : (Fin n → Bool) → Fin m → Bool) : Prop where
  realizes : net.Realizes name f
  wellFormed : net.WellFormed
  pis : net.pis = inputs
  pos : net.pos = outputs
  inner : ∀ other ∈ net.nets, other ∈ inputs ++ outputs ∨ IsInner other

/-- The optimiser writes mapped networks. It keeps the function of a model and of a design, and the
names of the terminals. -/
structure Abc (abc : Text → Text → Option Text) : Prop where
  blif : ∀ {n m : ℕ} {text name : Text} {inputs outputs : List Text}
    {f : (Fin n → Bool) → Fin m → Bool}, Mappable name inputs outputs n m →
      Blif.Describes text name inputs outputs f →
      ∀ (readBlifName writeVerilogName : Text) (lineNum : ℕ), ∃ net,
        abc (Verilog.runScript readBlifName writeVerilogName lineNum) text = some (writeVerilog net) ∧
          Maps net name inputs outputs f
  verilog : ∀ {n m : ℕ} {text : Text} {modules : List ModuleDecl} {top : ModuleDecl}
    {f : (Fin n → Bool) → Fin m → Bool}, Structural.read text = some modules → IsDesign modules top →
      Mappable top.name top.inputs top.outputs n m → Computes primitives modules top.name f →
      ∃ net, abc Verilog.mixScript text = some (writeVerilog net) ∧
        Maps net top.name top.inputs top.outputs f

/-- A file is a design of one module that computes a function. -/
def IsCircuit (file name : Text) (inputs outputs : List Text) (f : (Fin n → Bool) → Fin m → Bool) :
    Prop :=
  ∃ own, Structural.read file = some [own] ∧ IsDesign [own] own ∧ own.name = name ∧
    own.inputs = inputs ∧ own.outputs = outputs ∧ Computes primitives [own] name f

/-- The simulator runs the testbench of the repair on a netlist of the main circuit: it writes the log
of its initial block. -/
def Simulates (io : IoNames n m) (ncverilog : Text → Text → Text → Option Text × Text) : Prop :=
  (∀ name ∈ io.names, name ∉ reservedWords ∧ name ∉ benchWords) →
    ∀ (circuit : Text) (f : (Fin n → Bool) → Fin m → Bool),
      IsCircuit circuit (lit "main_circuit") (io.names.take n)
        (List.ofFn fun k => io.output k ++ lit "_main") f →
      ∃ shown, Testbench.Shows shown f ∧ ∀ inPat fuel log,
        Testbench.simulate shown n m fuel inPat = some log →
          (ncverilog (FixNetwork.testbench n m io.names) circuit inPat).1 = some log

end Contracts

section Circuits

variable {n m : ℕ}

/-- The gates of the language have reserved words. -/
theorem primitives_of_free {name : Text} (free : name ∉ reservedWords) : primitives name = none := by
  have listed : ∀ gate ∈ gates, gate.name ∈ reservedWords := by
    have all : ∀ word ∈ gates.map Primitive.name, word ∈ reservedWords := by decide +kernel
    exact fun gate inside => all _ (List.mem_map_of_mem inside)
  have absent : gates.find? (fun gate => gate.name = name) = none := by
    rw [List.find?_eq_none]
    intro gate inside same
    exact free (decide_eq_true_eq.mp same ▸ listed gate inside)
  rw [primitives, absent, Option.map_none]

/-- The rewritten file of a mapped network is a circuit with its terminals. -/
theorem Maps.isCircuit {net : Network} {name : Text} {inputs outputs : List Text}
    {f : (Fin n → Bool) → Fin m → Bool} (maps : Maps net name inputs outputs f)
    (mappable : Mappable name inputs outputs n m) :
    IsCircuit (Verilog.modifyVerilogFormat (writeVerilog net)) name inputs outputs f := by
  have legible := maps.realizes.legible
  have free := primitives_of_free mappable.title.free
  have same {names : List Text} (listed : names ⊆ inputs ++ outputs) : names.map shown = names :=
    (List.map_congr_left fun net inside => if_pos (mappable.signals net (listed inside)).plain).trans
      (List.map_id names)
  have named : (Verilog.rewritten net.module).name = name := by
    change shown net.name = name
    rw [maps.realizes.name]
    exact if_pos mappable.title.plain
  have alone : ∀ own ∈ [Verilog.rewritten net.module], primitives own.name = none := by
    rw [List.forall_mem_singleton, named]
    exact free
  refine ⟨Verilog.rewritten net.module, Verilog.read_modifyVerilogFormat legible, ?_, named, ?_, ?_, ?_⟩
  · exact isDesign_single (Verilog.isNetlist_rewritten maps.wellFormed legible.gates
      (shown_faithful net) _ alone) (Verilog.flat_rewritten legible.gates _ _)
      (alone _ List.mem_cons_self)
  · change net.pis.map shown = inputs
    rw [maps.pis]
    exact same (List.subset_append_left _ _)
  · change net.pos.map shown = outputs
    rw [maps.pos]
    exact same (List.subset_append_right _ _)
  · exact Verilog.computes_rewritten maps.realizes mappable.title.plain free (List.nodup_singleton _)
      List.mem_cons_self

end Circuits

section Reference

variable {n m : ℕ}

/-- The values of the inputs of a model. -/
def assignment (inputs : List Text) (bits : List Bool) (net : Text) : Bool :=
  bits.getD (inputs.idxOf net) false

end Reference

end LogicRegression.Main
