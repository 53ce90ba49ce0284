/-
This file embeds the generator of test patterns of `fixnetwork.cpp`.
-/

import LogicRegression.Library.Binary

namespace LogicRegression.FixNetwork

open Text Binary

/-- The library function finds the next vector in lexicographic order.
It turns the last entry that is below its successor and reverses what follows. -/
def nextPermutation : List Bool → Option (List Bool)
  | [] => none
  | b :: rest =>
      match nextPermutation rest with
      | some next => some (b :: next)
      | none =>
          ((List.range rest.length).reverse.find? fun j => b < rest.getD j b).map fun j =>
            rest.getD j b :: (rest.set j b).reverse

/-- The vectors that the loop of `combinator` visits from one vector on. -/
def permutations : ℕ → List Bool → Option (List (List Bool))
  | 0, _ => none
  | fuel + 1, v =>
      match nextPermutation v with
      | some next => (permutations fuel next).map (v :: ·)
      | none => some [v]

/-- The counter of the visits is an `int`. -/
def combinator (fuel n r : ℕ) : Option ℤ :=
  (permutations fuel (List.replicate (n - r) false ++ List.replicate r true)).map fun visits =>
    toInt visits.length

variable {inputNum : ℕ}

/-- The written form of a bitset starts with the highest bit. -/
def toStr (x : Fin inputNum → Bool) : Text := ((List.ofFn x).map bitChar).reverse

def flip (x : Fin inputNum → Bool) : Fin inputNum → Bool := fun j => !x j

/-- The list of the patterns and the map of the keys that were seen; the values of the map
are never read. -/
structure Patterns (inputNum : ℕ) where
  iogenInputPatterns : List (Fin inputNum → Bool)
  ppp : List Text
  deriving DecidableEq

/-- The assignment `ppp[key]` adds a key once. -/
def Patterns.record (x : Fin inputNum → Bool) (s : Patterns inputNum) : Patterns inputNum :=
  ⟨s.iogenInputPatterns ++ [x], if toStr x ∈ s.ppp then s.ppp else toStr x :: s.ppp⟩

/-- A vector is pushed when its key is new. -/
def Patterns.pushNew (x : Fin inputNum → Bool) (s : Patterns inputNum) : Patterns inputNum :=
  if toStr x ∈ s.ppp then s else s.record x

/-- This loop sets the real inputs of the chosen positions and leaves the others at zero. -/
def markBits (realPI : List (Fin inputNum)) (index : List Bool) : Fin inputNum → Bool :=
  (realPI.zip index).foldl
    (fun x entry => if entry.2 then Function.update x entry.1 true else x) fun _ => false

/-- This loop assigns a value to every real input. -/
def assignBits (realPI : List (Fin inputNum)) (values : List Bool) : Fin inputNum → Bool :=
  (realPI.zip values).foldl (fun x entry => Function.update x entry.1 entry.2) fun _ => false

/-- `printRes` pushes a vector and its complement, and with `two_order` their mirror images.
It is called with one index for each real input, so `temp` is the index vector itself. -/
def printRes (realPI : List (Fin inputNum)) (twoOrder : Bool) (s : Patterns inputNum)
    (index : List Bool) : Patterns inputNum :=
  let x := markBits realPI index
  let s := (s.pushNew x).pushNew (flip x)
  if twoOrder then
    let y := assignBits realPI.reverse index
    (s.pushNew y).pushNew (flip y)
  else s

/-- The last `k` positions are all chosen. -/
def hasDone (index : List Bool) (n k : ℕ) : Bool := (index.drop (n - k)).all id

/-- The first position that is chosen while its successor is not. -/
def firstTurn : ℕ → List Bool → Option ℕ
  | i, true :: false :: _ => some i
  | i, _ :: rest => firstTurn (i + 1) rest
  | _, [] => none

/-- The loop over `j` moves the chosen positions below `i` to the start. -/
def moveOnes (index : List Bool) (i : ℕ) : List Bool × ℕ :=
  (List.range i).foldl (fun state j =>
    if state.1.getD j false then ((state.1.set j false).set state.2 true, state.2 + 1) else state)
    (index, 0)

/-- One pass of the loop over `i`. -/
def nextIndex (index : List Bool) : Option (List Bool) :=
  (firstTurn 0 index).map fun i => (moveOnes ((index.set i false).set (i + 1) true) i).1

/-- The index vectors that the `while` loop hands to `printRes`.
A pass without a turn leaves the vector as it is. -/
def combLoop (n k : ℕ) (patternUpLimit : ℤ) : ℕ → List Bool → ℤ → Option (List (List Bool))
  | 0, _, _ => none
  | fuel + 1, index, patternSize =>
      if hasDone index n k then some []
      else
        match nextIndex index with
        | none => combLoop n k patternUpLimit fuel index patternSize
        | some next =>
            if patternSize < patternUpLimit then
              (combLoop n k patternUpLimit fuel next (patternSize + 2)).map (next :: ·)
            else some []

/-- The index vectors of one call of `Comb`: the first one is printed without a test. -/
def combIndices (fuel n k : ℕ) (patternUpLimit : ℤ) : Option (List (List Bool)) :=
  let index := List.replicate k true ++ List.replicate (n - k) false
  (combLoop n k patternUpLimit fuel index 2).map (index :: ·)

/-- The states after each of some `printRes` calls. -/
def printAll (realPI : List (Fin inputNum)) (twoOrder : Bool) :
    Patterns inputNum → List (List Bool) → List (Patterns inputNum)
  | _, [] => []
  | s, index :: indices =>
      let next := printRes realPI twoOrder s index
      next :: printAll realPI twoOrder next indices

/-- One level has its flag `two_order` and the states after the `printRes` calls of `Comb`. -/
structure Level (inputNum : ℕ) where
  twoOrder : Bool
  visited : List (Patterns inputNum)

/-- The variable `result` is declared anew in each round, so that it holds an arbitrary value
where `combinator` is not called. -/
def levelResult (fuel n k : ℕ) (overLimit : Bool) (uninit : ℤ) : Option ℤ :=
  if overLimit then some uninit else combinator fuel n k

/-- The loop over `j` runs the levels. -/
def levels (fuel n : ℕ) (patternUpLimit : ℤ) (realPI : List (Fin inputNum)) (uninit : ℕ → ℤ) :
    ℕ → ℕ → ℕ → Bool → Patterns inputNum → Option (List (Level inputNum))
  | 0, _, _, _, _ => some []
  | rounds + 1, j, k, overLimit, s => do
      let result ← levelResult fuel n k overLimit (uninit j)
      let twoOrder : Bool := result > patternUpLimit
      let indices ← combIndices fuel n k patternUpLimit
      let visited := printAll realPI twoOrder s indices
      let later ← levels fuel n patternUpLimit realPI uninit rounds (j + 1) (k + 1)
        (overLimit || twoOrder) (visited.getLastD s)
      return ⟨twoOrder, visited⟩ :: later

/-- The random bit that is one in a twentieth of the draws. -/
def extremeBit (value : ℕ) : Bool := value % 100 ≥ 95

def plainBit (value : ℕ) : Bool := value % 2 = 1

/-- This vector takes one value of `rand()` for each real input; the `count`-th value is
`rand count`. -/
def draw (bit : ℕ → Bool) (realPI : List (Fin inputNum)) (rand : ℕ → ℕ) (count : ℕ) :
    Fin inputNum → Bool :=
  assignBits realPI ((List.range realPI.length).map fun j => bit (rand (count + j)))

/-- A new vector is recorded with its complement, which is not looked up. -/
def Patterns.recordPair (z : Fin inputNum → Bool) (s : Patterns inputNum) : Patterns inputNum :=
  if toStr z ∈ s.ppp then s else (s.record z).record (flip z)

/-- A random loop draws again with the same `i` when the key is known.
The result has the states after each round and the number of values that were used. -/
def randomLoop (bit : ℕ → Bool) (patternUpLimit : ℤ) (realPI : List (Fin inputNum))
    (rand : ℕ → ℕ) : ℕ → ℤ → ℕ → Patterns inputNum → Option (List (Patterns inputNum) × ℕ)
  | 0, _, _, _ => none
  | fuel + 1, i, count, s =>
      if i < patternUpLimit then
        let z := draw bit realPI rand count
        let next := s.recordPair z
        (randomLoop bit patternUpLimit realPI rand fuel (if toStr z ∈ s.ppp then i else i + 1)
          (count + realPI.length) next).map fun rest => (next :: rest.1, rest.2)
      else some ([], count)

/-- The states that a call of `CreatePattern` goes through. -/
structure Run (inputNum : ℕ) where
  levels : List (Level inputNum)
  extreme : List (Patterns inputNum)
  plain : List (Patterns inputNum)

/-- The patterns and the map are empty at first. -/
def Patterns.empty : Patterns inputNum := ⟨[], []⟩

/-- The states of the levels in their order. -/
def Run.printed (run : Run inputNum) : List (Patterns inputNum) := run.levels.flatMap Level.visited

/-- The state before the random loops. -/
def Run.enumerated (run : Run inputNum) : Patterns inputNum := run.printed.getLastD Patterns.empty

/-- All states of the run in their order. -/
def Run.visited (run : Run inputNum) : List (Patterns inputNum) :=
  run.printed ++ run.extreme ++ run.plain

/-- The patterns when the call returns. -/
def Run.final (run : Run inputNum) : Patterns inputNum := run.visited.getLastD Patterns.empty

/-- `CreatePattern` runs the levels and then the two random loops.
The second result counts the values of `rand()` that were used. -/
def createPattern (fuel n k round : ℕ) (patternUpLimit : ℤ) (realPI : List (Fin inputNum))
    (uninit : ℕ → ℤ) (rand : ℕ → ℕ) (count : ℕ) : Option (Run inputNum × ℕ) := do
  let levels ← levels fuel n patternUpLimit realPI uninit round 0 k false Patterns.empty
  let enumerated := (levels.flatMap Level.visited).getLastD Patterns.empty
  let extreme ← randomLoop extremeBit patternUpLimit realPI rand fuel 0 count enumerated
  let plain ← randomLoop plainBit patternUpLimit realPI rand fuel 0 extreme.2
    (extreme.1.getLastD enumerated)
  return (⟨levels, extreme.1, plain.1⟩, plain.2)

end LogicRegression.FixNetwork
