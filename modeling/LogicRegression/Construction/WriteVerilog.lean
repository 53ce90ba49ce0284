/-
This file embeds the Verilog writer of `ioWriteVerilog.c` for mapped combinational networks, and the
gates of `verify.lib`.
-/

import LogicRegression.Library.Text

namespace LogicRegression.WriteVerilog

open Text

/-- A gate of a library has a number of input pins; its function reads the pins by their numbers. -/
structure MioGate where
  name : Text
  pins : ℕ
  function : (ℕ → Bool) → Bool

/-- The gates of `verify.lib` in the order of the file. -/
def verifyLib : List MioGate :=
  [⟨lit "not", 1, fun a => !a 0⟩, ⟨lit "buf", 1, fun a => a 0⟩, ⟨lit "and", 2, fun a => a 0 && a 1⟩,
    ⟨lit "or", 2, fun a => a 0 || a 1⟩, ⟨lit "nand", 2, fun a => !(a 0 && a 1)⟩,
    ⟨lit "nor", 2, fun a => !(a 0 || a 1)⟩, ⟨lit "xor", 2, fun a => (a 0 && !a 1) || (!a 0 && a 1)⟩,
    ⟨lit "xnor", 2, fun a => (a 0 && a 1) || (!a 0 && !a 1)⟩, ⟨lit "zero", 0, fun _ => false⟩,
    ⟨lit "one", 0, fun _ => true⟩]

/-- The length of the longest gate name. -/
def readGateNameMax (library : List MioGate) : ℕ :=
  (library.map fun gate => gate.name.length).foldl max 0

/-- A node drives a net and has one fanin for each pin of its gate. The flag tells that the first
fanout of its net is a combinational output. -/
structure Node where
  gate : MioGate
  net : Text
  fanins : List Text
  fits : fanins.length = gate.pins
  fanoutIsCo : Bool

/-- A mapped network without latches and boxes: the nets of its terminals and its nodes. -/
structure Network where
  name : Text
  library : List MioGate
  pis : List Text
  pos : List Text
  nodes : List Node

/-- A name with another character, and the names `0` and `1`, become escaped names. -/
def getName (name : Text) : Text :=
  if (name ≠ ['0'] ∧ name ≠ ['1']) ∧ name.all fun c => c.isAlphanum || c = '_' then name
  else '\\' :: name ++ [' ']

/-- The macro `IO_WRITE_LINE_LENGTH`. -/
def lineLengthMax : ℕ := 78

/-- The loop that writes some names, each with what follows it, and starts a new line before a name
that does not fit. -/
def writeNames : ℕ → ℕ → List (Text × Text) → Text
  | _, _, [] => []
  | lineLength, nameCounter, (name, comma) :: rest =>
      let addedLength := (getName name).length + 2
      if nameCounter ≠ 0 ∧ lineLength + addedLength + 3 > lineLengthMax then
        lit "\n   " ++ (' ' :: getName name ++ comma ++ writeNames (3 + addedLength) 1 rest)
      else
        ' ' :: getName name ++ comma ++ writeNames (lineLength + addedLength) (nameCounter + 1) rest

/-- Each name but the last one is followed by a comma. -/
def separated : List Text → List (Text × Text)
  | [] => []
  | [name] => [(name, [])]
  | name :: rest => (name, [',']) :: separated rest

def writePis (net : Network) (start : ℕ) : Text := writeNames start 0 (separated net.pis)

/-- An output that an input drives is skipped. -/
def writePos (net : Network) (start : ℕ) : Text :=
  writeNames start 0 ((separated net.pos).filter fun item => item.1 ∉ net.pis)

/-- The nets of the nodes that do not drive an output first. The first object of a network is a
terminal, so no node is passed over. -/
def Network.wires (net : Network) : List Text :=
  (net.nodes.filter fun node => !node.fanoutIsCo).map Node.net

def writeWires (net : Network) (start : ℕ) : Text := writeNames start 0 (separated net.wires)

/-- A constant of the mapper is an assignment, every other node is an instance of its gate. -/
def nodeText (length : ℕ) (node : Node) : Text :=
  if node.gate.pins = 0 ∧ (node.gate.name = lit "_const0_" ∨ node.gate.name = lit "_const1_") then
    lit "  " ++ List.rightpad length ' ' (lit "assign") ++ ' ' :: getName node.net ++ lit " = 1'b" ++
      (if node.gate.name = lit "_const1_" then ['1'] else ['0']) ++ lit ";" ++ ['\n']
  else
    List.rightpad length ' ' node.gate.name ++ lit " ( " ++ getName node.net ++
      node.fanins.flatMap (fun fanin => lit ", " ++ getName fanin) ++ lit " );" ++ ['\n']

def writeObjects (net : Network) : Text :=
  net.nodes.flatMap (nodeText (readGateNameMax net.library))

/-- The header of the module and its declarations. -/
def writeHead (net : Network) : Text :=
  lit "module " ++ getName net.name ++ lit " ( " ++ lit "\n   " ++
    (if net.pis ≠ [] then writePis net 3 ++ lit ",\n   " else []) ++
    (if net.pos ≠ [] then writePos net 3 else []) ++ lit "  );\n" ++
    (if net.pis ≠ [] then lit "  input " ++ writePis net 10 ++ lit ";\n" else []) ++
    (if net.pos ≠ [] then lit "  output" ++ writePos net 5 ++ lit ";\n" else []) ++
    (if net.wires ≠ [] then lit "  wire" ++ writeWires net 4 ++ lit ";\n" else [])

def writeVerilogInt (net : Network) : Text :=
  writeHead net ++ writeObjects net ++ lit "endmodule\n\n"

/-- The text that `write_verilog` writes for a network without other modules. -/
def writeVerilog (net : Network) : Text := writeVerilogInt net ++ ['\n']

section Meaning

/-- The values of the nets agree with the gates of the nodes. -/
def Network.Consistent (net : Network) (value : Text → Bool) : Prop :=
  ∀ node ∈ net.nodes,
    value node.net = node.gate.function fun pin => value (node.fanins.getD pin [])

/-- The terminals of the network can have these values: its inputs and then its outputs. -/
def Network.Allows (net : Network) (pins : List Bool) : Prop :=
  ∃ value, net.Consistent value ∧ pins = (net.pis ++ net.pos).map value

/-- The network computes a function. -/
def Network.Computes (net : Network) {n m : ℕ} (f : (Fin n → Bool) → Fin m → Bool) : Prop :=
  ∀ pins, net.Allows pins ↔ ∃ x, pins = List.ofFn x ++ List.ofFn (f x)

end Meaning

end LogicRegression.WriteVerilog
