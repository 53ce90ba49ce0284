/-
This file embeds how a simulator runs the row loop of the testbenches that the programs write.
-/

import LogicRegression.Construction.Testbench

namespace LogicRegression.Testbench

open Text Binary

/-- The conversion `%d` skips white space and reads a number, of which a register of one bit keeps
the last bit. Signs and unknown digits are not modelled: the programs write the digits of bits. -/
def scanBit (file : Text) : Option (Bool × Text) :=
  let digits := (file.dropWhile isSpace).takeWhile Char.isDigit
  if digits = [] then none
  else some (decide (Nat.ofDigitChars 10 digits 0 % 2 = 1),
    (file.dropWhile isSpace).dropWhile Char.isDigit)

/-- `$fscanf` fills the registers in their order. A conversion that fails leaves its register and the
later ones as they are, and the blank after the last conversion skips white space. -/
def scanRow : List (Option Bool) → Text → List (Option Bool) × Text
  | [], file => ([], file.dropWhile isSpace)
  | old :: registers, file =>
      match scanBit file with
      | none => (old :: registers, file.dropWhile isSpace)
      | some (bit, rest) =>
          let later := scanRow registers rest
          (some bit :: later.1, later.2)

/-- `$fwrite` writes the outputs with a blank after each. -/
def writeRow (outputs : List Char) : Text := outputs.flatMap (fun c => [c, ' ']) ++ ['\n']

/-- The row loop. The file has ended when a round has read behind its last character, so that the
first round runs in any case. The circuit gives the characters of its outputs for registers that may
be unknown. -/
def runRowLoop (circuit : List (Option Bool) → List Char) : ℕ → List (Option Bool) → Text → Option Text
  | 0, _, _ => none
  | fuel + 1, registers, file =>
      let row := scanRow registers file
      let line := writeRow (circuit row.1)
      if row.2 = [] then some line else (runRowLoop circuit fuel row.1 row.2).map (line ++ ·)

/-- The log of the initial block, when it ends: the registers start unknown. -/
def simulate (circuit : List (Option Bool) → List Char) (inputNum outputNum fuel : ℕ)
    (inPat : Text) : Option Text :=
  (skipHeader (inputNum + outputNum) fuel inPat).bind
    (runRowLoop circuit fuel (List.replicate inputNum none))

end LogicRegression.Testbench
