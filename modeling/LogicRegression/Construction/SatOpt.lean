/-
This file embeds the truth-table minimiser of `satopt.cpp`.
-/

import LogicRegression.Library.Binary

namespace LogicRegression.SatOpt

open Text Binary

/-- The entries of an `unordered_map<string, string>` in its iteration order. -/
abbrev Table := List (Text × Text)

/-- The pairs of an input position and its score. -/
abbrev InputOrder := List (ℕ × ℤ)

/-- `Int2Binary` takes remainders and halves towards zero, so a sign does not show.
Zero gives the empty string. -/
def int2Binary (converInt : ℤ) : Text := Binary.numeral converInt.natAbs

def sortFunc (i j : ℕ × ℤ) : Bool := i.2 > j.2

/-- One call of `std::sort` with `sort_func`: the order of ties is left open. -/
structure StdSort where
  run : InputOrder → InputOrder
  perm : ∀ items, (run items).Perm items
  sorted : ∀ items, (run items).Pairwise fun i j => sortFunc j i = false

/-- The iteration order that the hash map takes for its entries is left open. -/
structure HashOrder where
  run : Table → Table
  perm : ∀ table, (run table).Perm table

def orderBack (inputOrder : InputOrder) (pat : Text) : Text :=
  (inputOrder.zip pat).foldl (fun reStr entry => reStr.set entry.1.1 entry.2) pat

/-- Both sign loops of `Reorder` negate the scores of the inputs at `1`. -/
def negateOnes (pat : Text) (inputOrder : InputOrder) : InputOrder :=
  inputOrder.mapIdx fun i entry =>
    if i < pat.length ∧ pat[entry.1]? = some '1' then (entry.1, -entry.2) else entry

/-- `Reorder` returns the permuted string and leaves the new order behind. -/
def reorder (sort : StdSort) (inputOrder : InputOrder) (pat : Text) : Text × InputOrder :=
  let sorted := sort.run (negateOnes pat inputOrder)
  ((sorted.take pat.length).map fun entry => pat.getD entry.1 '\x00', negateOnes pat sorted)

/-- This scan collects the positions of the dashes from index `j` on. -/
def dcPositions : ℕ → Text → List ℕ
  | _, [] => []
  | j, c :: rest => if c = '-' then j :: dcPositions (j + 1) rest else dcPositions (j + 1) rest

/-- The loop over `k` writes the bits of `bin` at the recorded positions.
The source fetches `dc_pos[cnt]` before it tests `cnt`; past the end the fetched value is unused. -/
def queryPattern (dcPos : List ℕ) (bin : Text) : ℕ → ℕ → Text → Text
  | _, _, [] => []
  | k, cnt, c :: rest =>
      if dcPos[cnt]? = some k ∧ cnt < bin.length then
        bin.getD cnt '\x00' :: queryPattern dcPos bin (k + 1) (cnt + 1) rest
      else c :: queryPattern dcPos bin (k + 1) cnt rest

/-- The two `continue` statements skip the assignments that keep the recorded bit. -/
def halfSpace (recordBit : Char) (j : ℕ) : Bool :=
  (recordBit = '0' && j % 2 = 0) || (recordBit = '1' && j % 2 = 1)

/-- The loop over `j` looks up each assignment of the dashes that it does not skip. -/
def scanFails (skip : ℕ → Bool) (isOff : Text → Bool) (dcString : Text) : Bool :=
  let dcPos := dcPositions 0 dcString
  (List.range (2 ^ dcPos.length)).any fun j =>
    !skip j &&
      isOff (queryPattern dcPos ((int2Binary (toInt j)).leftpad dcPos.length '0') 0 0 dcString)

/-- One round of the loop over `i` frees position `i` unless the scan fails. -/
def expandStep (skip : Char → ℕ → Bool) (isOff : Text → Bool) (inputPat dcString : Text) (i : ℕ) :
    Text :=
  let recordBit := dcString.getD i '\x00'
  let freed := dcString.set i '-'
  if scanFails (skip recordBit) isOff freed then freed.set i (inputPat.getD i '\x00') else freed

def expand (skip : Char → ℕ → Bool) (isOff : Text → Bool) (inputPat : Text) : Text :=
  (List.range inputPat.length).foldl (expandStep skip isOff inputPat) inputPat

/-- A key is in the off-set when the map holds the value `0` for it. -/
def isOff (patterns : Table) (key : Text) : Bool := patterns.lookup key = some ['0']

/-- The speed-up test compares a row with an earlier result up to its output bit. -/
def alreadyCovered (rPattern first : Text) : Bool :=
  (List.range (rPattern.length - 1)).all fun j =>
    !(rPattern.getD j '\x00' != '-' && rPattern.getD j '\x00' != first.getD j '\x00')

/-- The order and the results change together while the map is traversed. -/
structure Progress where
  inputOrder : InputOrder
  resultPatterns : List Text

/-- One on-set row is reordered, expanded and put back in the order of the inputs. -/
def growPattern (skip : Char → ℕ → Bool) (sort : StdSort) (realPINum : ℕ) (patterns : Table)
    (inputOrder : InputOrder) (first : Text) : Text × InputOrder :=
  let reordered := if realPINum ≠ 0 then reorder sort inputOrder first else (first, inputOrder)
  let back := fun pat => if realPINum ≠ 0 then orderBack reordered.2 pat else pat
  let dcString := expand skip (fun queryPat => isOff patterns (back queryPat)) reordered.1
  (back dcString ++ ['1'], reordered.2)

/-- One round of the traversal; the number of results numbers the calls of `sort`. -/
def minimizeStep (skip : Char → ℕ → Bool) (sorts : ℕ → StdSort) (realPINum : ℕ) (patterns : Table)
    (progress : Progress) (pattern : Text × Text) : Progress :=
  if pattern.2 = ['1'] then
    if progress.resultPatterns.any fun rPattern => alreadyCovered rPattern pattern.1 then progress
    else
      let grown := growPattern skip (sorts progress.resultPatterns.length) realPINum patterns
        progress.inputOrder pattern.1
      ⟨grown.2, progress.resultPatterns ++ [grown.1]⟩
  else progress

def minimize (skip : Char → ℕ → Bool) (sorts : ℕ → StdSort) (realPINum : ℕ) (patterns : Table)
    (inputOrder : InputOrder) : Progress :=
  patterns.foldl (minimizeStep skip sorts realPINum patterns) ⟨inputOrder, []⟩

/-- The list `result_patterns` after the traversal of the map. -/
def resultPatterns (sorts : ℕ → StdSort) (realPINum : ℕ) (patterns : Table)
    (inputOrder : InputOrder) : List Text :=
  (minimize halfSpace sorts realPINum patterns inputOrder).resultPatterns

/-- The input part and the output bit of one row of the simulation file. -/
def readRow (inputNum outputIndex : ℕ) (dummyPI : List ℕ) (cells : List Text) : Text × Text :=
  (((List.range inputNum).filter (· ∉ dummyPI)).flatMap fun j => cells.getD j [],
    cells.getD (inputNum + outputIndex) [])

def readRows (inputNum outputNum outputIndex : ℕ) (dummyPI : List ℕ) :
    ℕ → Stream → List (Text × Text)
  | 0, _ => []
  | count + 1, stream =>
      let cells := extractMany [] (inputNum + outputNum) stream
      readRow inputNum outputIndex dummyPI cells.1 ::
        readRows inputNum outputNum outputIndex dummyPI count cells.2

/-- `unordered_map::insert` keeps the entry of a key that is present. -/
def insertRow (patterns : Table) (row : Text × Text) : Table :=
  if (patterns.lookup row.1).isSome then patterns else patterns ++ [row]

/-- The four counters of one input over all rows that were read. -/
def countRows (rows : List (Text × Text)) (id : ℕ) (onset : Bool) (bit : Char) : ℕ :=
  rows.countP fun row => decide (row.2 = ['1']) = onset ∧ row.1[id]? = some bit

/-- The score that `inputOrder` starts with. -/
def score (rows : List (Text × Text)) (id : ℕ) : ℤ :=
  let onesInOnset := countRows rows id true '1'
  let zerosInOnset := countRows rows id true '0'
  let onesInOffset := countRows rows id false '1'
  let zerosInOffset := countRows rows id false '0'
  ((onesInOnset + zerosInOffset : ℕ) : ℤ) - ((zerosInOnset + onesInOffset : ℕ) : ℤ)

/-- The text of `beyond_to_abcOpt.txt`: the early return leaves the truncated file empty. -/
def writeResult (inputNum outputNum outputIndex : ℕ) (ioNames results : List Text) : Text :=
  if inputNum = 0 ∨ outputNum = 0 then []
  else
    spaced [decimal inputNum, decimal 1, decimal results.length] ++ '\n' ::
      (spaced (ioNames.take inputNum ++ [ioNames.getD (inputNum + outputIndex) []]) ++ '\n' ::
        results.flatMap fun result =>
          spaced ((List.range (inputNum + 1)).map fun j => [result.getD j '\x00']) ++ ['\n'])

/-- The value of `real_PI_num`, the size of the vectors that count the bits. The library stops the
program when it is negative. -/
def realPISize (infile : Text) (dummyPI : List ℕ) : ℤ :=
  (extractNat 0 (words infile)).1 - (dummyPI.length : ℤ)

/-- `SATOptimization` reads the simulation file and returns the text of its own output file, for a
`real_PI_num` that is not negative. -/
def satOptimization (sorts : ℕ → StdSort) (hashOrder : HashOrder) (infile : Text) (dummyPI : List ℕ)
    (outputIndex : ℕ) : Text :=
  let inputs := extractNat 0 (words infile)
  let outputs := extractNat 0 inputs.2
  let patternNum := extractNat 0 outputs.2
  let names := extractMany [] (inputs.1 + outputs.1) patternNum.2
  let ioNames := ((List.range (inputs.1 + outputs.1)).filter (· ∉ dummyPI)).map fun i =>
    names.1.getD i []
  let realPINum := inputs.1 - dummyPI.length
  let rows := if outputIndex < outputs.1 then
    readRows inputs.1 outputs.1 outputIndex dummyPI patternNum.1 names.2 else []
  let patterns := hashOrder.run (rows.foldl insertRow [])
  let inputOrder := (List.range realPINum).map fun id => (id, score rows id)
  writeResult realPINum outputs.1 outputIndex ioNames
    (resultPatterns sorts realPINum patterns inputOrder)

section Accesses

/-- The containers that an expansion indexes. -/
inductive Container where
  | dcPos
  | bin
  | queryPat
  | inputOrder
  | reStr
  deriving DecidableEq

/-- One indexing of a container, with the size that the container has then. -/
structure Access where
  container : Container
  index : ℕ
  size : ℕ
  deriving DecidableEq

/-- The accesses of `Order_back`. -/
def orderBackAccesses (inputOrder : InputOrder) (pat : Text) : List Access :=
  (List.range pat.length).flatMap fun i =>
    ⟨.inputOrder, i, inputOrder.length⟩ ::
      (inputOrder[i]?.toList.map fun entry => ⟨.reStr, entry.1, pat.length⟩)

/-- The accesses of the loop over `k`: it fetches `dc_pos[cnt]` in every round. -/
def queryAccesses (size : ℕ) (dcPos : List ℕ) (bin : Text) : ℕ → ℕ → Text → List Access
  | _, _, [] => []
  | k, cnt, _ :: rest =>
      ⟨.dcPos, cnt, dcPos.length⟩ ::
        if dcPos[cnt]? = some k ∧ cnt < bin.length then
          ⟨.queryPat, k, size⟩ :: ⟨.bin, cnt, bin.length⟩ ::
            queryAccesses size dcPos bin (k + 1) (cnt + 1) rest
        else queryAccesses size dcPos bin (k + 1) cnt rest

/-- The accesses of the loop over `j`, which ends at the first assignment in the off-set. -/
def scanAccesses (skip : ℕ → Bool) (isOff : Text → Bool) (backAccesses : Text → List Access)
    (dcString : Text) : List ℕ → List Access
  | [] => []
  | j :: later =>
      let dcPos := dcPositions 0 dcString
      let bin := (int2Binary (toInt j)).leftpad dcPos.length '0'
      let queryPat := queryPattern dcPos bin 0 0 dcString
      if skip j then scanAccesses skip isOff backAccesses dcString later
      else
        queryAccesses dcString.length dcPos bin 0 0 dcString ++ backAccesses queryPat ++
          if isOff queryPat then [] else scanAccesses skip isOff backAccesses dcString later

/-- The accesses of one round of the loop over `i`. -/
def stepAccesses (skip : Char → ℕ → Bool) (isOff : Text → Bool) (backAccesses : Text → List Access)
    (dcString : Text) (i : ℕ) : List Access :=
  let freed := dcString.set i '-'
  scanAccesses (skip (dcString.getD i '\x00')) isOff backAccesses freed
    (List.range (2 ^ (dcPositions 0 freed).length))

/-- The accesses of the rounds for the positions in a list, and then of the last `Order_back`. -/
def expandAccesses (skip : Char → ℕ → Bool) (isOff : Text → Bool)
    (backAccesses : Text → List Access) (inputPat : Text) : Text → List ℕ → List Access
  | dcString, [] => backAccesses dcString
  | dcString, i :: later =>
      stepAccesses skip isOff backAccesses dcString i ++
        expandAccesses skip isOff backAccesses inputPat
          (expandStep skip isOff inputPat dcString i) later

/-- The accesses of the expansion of one on-set row. -/
def growAccesses (skip : Char → ℕ → Bool) (sort : StdSort) (realPINum : ℕ) (patterns : Table)
    (inputOrder : InputOrder) (first : Text) : List Access :=
  let reordered := if realPINum ≠ 0 then reorder sort inputOrder first else (first, inputOrder)
  let back := fun pat => if realPINum ≠ 0 then orderBack reordered.2 pat else pat
  let backAccesses := fun pat => if realPINum ≠ 0 then orderBackAccesses reordered.2 pat else []
  expandAccesses skip (fun queryPat => isOff patterns (back queryPat)) backAccesses reordered.1
    reordered.1 (List.range reordered.1.length)

end Accesses

end LogicRegression.SatOpt
