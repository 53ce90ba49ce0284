/-
This file embeds the testbenches that the programs write, and how one reads its pattern file.
-/

import LogicRegression.Construction.FixNetwork

namespace LogicRegression.Testbench

open Text Binary

/-- The declaration of the register that holds a character has one bit for each pin. -/
def tmpDeclaration (inputNum outputNum : ℕ) : Text :=
  lit "\treg[" ++ decimal (inputNum + outputNum - 1) ++ lit ":0] tmp;\n"

/-- The loop that skips the two lines of the header. -/
def headerLoop : Text :=
  lit "\t\tfor(i = 0; i < 2; i = i + 1) begin\n\t\t\ttmp = $fgetc(fp_r);\n" ++
    lit "\t\t\twhile(tmp != 10) begin\n\t\t\t\ttmp = $fgetc(fp_r);\n\t\t\tend\n\t\tend\n"

/-- The pins of the circuit: a register for each input and a wire for each output. -/
def pins (inputs outputs : List Text) : Text :=
  lit "\treg " ++ List.intercalate (lit ", ") inputs ++
    lit ";\n\twire " ++ List.intercalate (lit ", ") outputs ++ lit ";\n"

/-- The instance of the circuit, whose outputs have a suffix. -/
def instantiation (circuit suffix : Text) (inputs outputs : List Text) : Text :=
  lit "\t" ++ circuit ++ lit "(\n" ++
    (inputs.flatMap fun name => lit "\t\t." ++ name ++ lit "(" ++ name ++ lit "),\n") ++
    List.intercalate (lit ",\n")
      (outputs.map fun name => lit "\t\t." ++ name ++ suffix ++ lit "(" ++ name ++ lit ")") ++
    lit "\n\t);\n\n"

/-- The loop that applies the rows of the pattern file and writes the outputs to the log. -/
def rowLoop (inputs outputs : List Text) : Text :=
  lit "\t\twhile(!$feof(fp_r)) begin\n\t\t\ttemp = $fscanf(fp_r, \"" ++
    (inputs.flatMap fun _ => lit "%d ") ++ lit "\"" ++
    (inputs.flatMap fun name => lit ", " ++ name) ++
    lit ");\n\t\t\t#1;\n\t\t\t$fwrite(fp_w, \"" ++ (outputs.flatMap fun _ => lit "%d ") ++
    lit "\\n\"" ++ (outputs.flatMap fun name => lit ", " ++ name) ++
    lit ");\n\t\tend\n"

/-- The text of a testbench. -/
def text (name circuit suffix inPat log : Text) (inputNum outputNum : ℕ) (ioNames : List Text) :
    Text :=
  let inputs := ioNames.take inputNum
  let outputs := (ioNames.drop inputNum).take outputNum
  lit "module " ++ name ++ lit ";\n" ++ pins inputs outputs ++
    tmpDeclaration inputNum outputNum ++ lit "\tinteger fp_r, fp_w, i, temp;\n" ++
    instantiation circuit suffix inputs outputs ++ lit "\tinitial begin\n" ++
    lit "\t\tfp_r = $fopen(\"" ++ inPat ++ lit "\", \"r\");\n" ++
    lit "\t\tfp_w = $fopen(\"" ++ log ++ lit "\", \"w\");\n" ++ headerLoop ++
    rowLoop inputs outputs ++ lit "\t\t$fclose(fp_r);\n\t\t$fclose(fp_w);\n\tend\nendmodule"

/-- The system function `$fgetc` gives the code of the next character, or -1 at the end. -/
def fgetc : Text → ℤ × Text
  | [] => (-1, [])
  | c :: rest => (c.toNat, rest)

/-- The inner loop of the header: an assignment to the register keeps its low bits. -/
def readToNewline {width : ℕ} : ℕ → BitVec width → Text → Option Text
  | 0, _, _ => none
  | fuel + 1, tmp, file =>
      if tmp.toNat ≠ 10 then
        readToNewline fuel (BitVec.ofInt width (fgetc file).1) (fgetc file).2
      else some file

/-- One round of the header loop. -/
def skipLine (width fuel : ℕ) (file : Text) : Option Text :=
  readToNewline fuel (BitVec.ofInt width (fgetc file).1) (fgetc file).2

/-- The header loop gives the rest of the file, when it ends. -/
def skipHeader (width fuel : ℕ) (file : Text) : Option Text :=
  (skipLine width fuel file).bind (skipLine width fuel)

end LogicRegression.Testbench
