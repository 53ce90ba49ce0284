/-
This file embeds the scripts of `abcopt.cpp` and the rewriting of `modifyverilog.cpp`.
-/

import LogicRegression.Library.Text

namespace LogicRegression.Verilog

open Text

/-- The text of `beyond_run.script`: a long file gets the short sequence of commands. -/
def runScript (readBlifName writeVerilogName : Text) (lineNum : ℕ) : Text :=
  lit "read_blif " ++ readBlifName ++ '\n' ::
    ((if lineNum ≤ 500 then
        lit "compress2rs\nresyn2rs\nchoice2\ncompress2rs\nresyn2rs\ncompress2rs\nresyn2rs\n"
      else lit "resyn2\n") ++
      lit "read_library verify.lib\nmap -a\nwrite_verilog " ++ writeVerilogName ++ '\n' ::
        lit "quit\n")

/-- The text of `beyond_mix.script`. -/
def mixScript : Text :=
  lit "read_verilog beyond_before_flatten_circuit.v\nresyn2\nread_library verify.lib\nmap -a\n" ++
    lit "write_verilog beyond_after_flatten_circuit.v\nquit\n"

/-- The name between the first seven and the last three characters of a line. -/
def outputName (str : Text) : Text := (str.take (str.length - 3)).drop 7

/-- A constant cell becomes a buffer of a constant. -/
def modifyLine (str : Text) : Text :=
  if str.take 4 = lit "zero" then lit "buf  ( " ++ outputName str ++ lit ", 1'b0 );"
  else if str.take 4 = lit "one " then lit "buf  ( " ++ outputName str ++ lit ", 1'b1 );"
  else str

/-- The lines that are counted as gates. -/
def isGate (str : Text) : Bool :=
  [lit "and ", lit "or  ", lit "nand", lit "nor ", lit "xor ", lit "xnor"].contains (str.take 4)

/-- The name of a constant cell is cut out between iterators, and the library stops the program when
the second one comes before the first one. -/
def isShort (str : Text) : Bool :=
  (str.take 4 = lit "zero" || str.take 4 = lit "one ") && str.length < 10

/-- The text that `ModifyVerilogFormat` writes when no line is too short. -/
def modifyVerilogFormat (file : Text) : Text :=
  (lines file).flatMap fun str => modifyLine str ++ ['\n']

/-- The text that is written in front of the first line that is too short; each line is flushed. -/
def modifiedPart (file : Text) : Text :=
  ((lines file).takeWhile fun str => !isShort str).flatMap fun str => modifyLine str ++ ['\n']

/-- The number of gates that it returns. -/
def gatecnt (file : Text) : ℕ := (lines file).countP isGate

end LogicRegression.Verilog
