/-
This file embeds the minimisation of assumptions of `minimize.cpp`.
-/

import LogicRegression.Construction.SatOpt
import LogicRegression.Library.Bubble

namespace LogicRegression.Minimize

open SatOpt

/-- A literal of the solver: the sign is set for a negated variable. -/
structure Lit (n : ℕ) where
  var : Fin n
  sign : Bool
  deriving DecidableEq

variable {n : ℕ}

def Lit.Holds (values : Fin n → Bool) (l : Lit n) : Prop := values l.var ≠ l.sign

instance (values : Fin n → Bool) (l : Lit n) : Decidable (l.Holds values) :=
  inferInstanceAs (Decidable (_ ≠ _))

/-- Some values of the variables make each clause and all given literals true. -/
def Satisfiable (clauses : List (List (Lit n))) (lits : List (Lit n)) : Prop :=
  ∃ values : Fin n → Bool, (∀ clause ∈ clauses, ∃ l ∈ clause, l.Holds values) ∧
    ∀ l ∈ lits, l.Holds values

instance (clauses : List (List (Lit n))) (lits : List (Lit n)) :
    Decidable (Satisfiable clauses lits) := inferInstanceAs (Decidable (∃ _, _))

/-- The solver holds the clauses and the assumptions of its last call. -/
structure Solver (n : ℕ) where
  clauses : List (List (Lit n))
  assumptions : List (Lit n)
  deriving DecidableEq

/-- An exact call of `Solver::solve`, which stores its assumptions. -/
def Solver.solve (soff : Solver n) (assumps : List (Lit n)) : Bool × Solver n :=
  (Satisfiable soff.clauses assumps, { soff with assumptions := assumps })

def Solver.copyFrom (soff : Solver n) (copy : List (Lit n)) : Solver n :=
  { soff with assumptions := copy }

/-- The function `solve_a` adds a pattern to the stored assumptions. -/
def solveA (solv : Solver n) (pat : List (Lit n)) : Bool × Solver n :=
  solv.solve (solv.assumptions ++ pat)

/-- The solver and the vector `result` after a part of the minimisation. -/
structure State (n : ℕ) where
  soff : Solver n
  result : List (Lit n)
  deriving DecidableEq

/-- One round of the linear loop takes the last literal and puts a needed one to the front. -/
def tryLast (state : State n) : State n :=
  match state.result.getLast? with
  | some nVar =>
      let answer := state.soff.solve state.result.dropLast
      ⟨answer.2, if answer.1 then nVar :: state.result.dropLast else state.result.dropLast⟩
  | none => state

/-- The linear loop makes one round for each literal. -/
def linear (soff : Solver n) (pat : List (Lit n)) : State n := tryLast^[pat.length] ⟨soff, pat⟩

def orderFunction (i j : ℕ × ℤ) : Bool := i.2 < j.2

/-- One call of `std::sort` with `order_function`: the order of ties is left open. -/
structure AscendingSort where
  run : InputOrder → InputOrder
  perm : ∀ items, (run items).Perm items
  sorted : ∀ items, (run items).Pairwise fun i j => orderFunction j i = false

/-- The first loop of `input_reorder` negates the scores of the negated literals. -/
def negateSigns (pat : List (Lit n)) (inputOrder : InputOrder) : InputOrder :=
  inputOrder.map fun entry =>
    if (pat[entry.1]?.map Lit.sign) = some true then (entry.1, -entry.2) else entry

/-- The vector `re_pat` has the literals in the order of their scores. -/
def inputReorder (sort : AscendingSort) (pat : List (Lit n)) (inputOrder : InputOrder) :
    List (Lit n) :=
  (sort.run (negateSigns pat inputOrder)).filterMap fun entry => pat[entry.1]?

/-- One round of the dividing loop moves the last literal of `pat_high` to `pat_low`. -/
def moveLast (halves : List (Lit n) × List (Lit n)) : List (Lit n) × List (Lit n) :=
  match halves.1.getLast? with
  | some l => (halves.1.dropLast, l :: halves.2)
  | none => halves

/-- The halves `pat_high` and `pat_low` of a pattern. -/
def divide (pat : List (Lit n)) : List (Lit n) × List (Lit n) := moveLast^[pat.length / 2] (pat, [])

/-- A recursive call takes the solver, the pattern and the vector `result`. -/
abbrev Call (n : ℕ) := Solver n → List (Lit n) → List (Lit n) → Option (State n)

/-- The branch of method 2; `current` holds the assumptions on entry. -/
def divideAndConquer (self : Call n) (soff : Solver n) (patHigh patLow result : List (Lit n)) :
    Option (State n) :=
  let current := soff.assumptions
  let low := solveA soff patLow
  if !low.1 then self (low.2.copyFrom current) patLow result
  else
    let high := solveA (low.2.copyFrom current) patHigh
    if !high.1 then self (high.2.copyFrom current) patHigh result
    else do
      let solHigh ← self (high.2.copyFrom (current ++ patLow)) patHigh []
      let solLow ← self (solHigh.soff.copyFrom (current ++ solHigh.result)) patLow []
      return ⟨solLow.soff, solHigh.result ++ solLow.result⟩

/-- The assumptions of the growing and of the shrinking loop of method 3. -/
def contexts (current lits : List (Lit n)) : List (List (Lit n)) :=
  ((List.range lits.length).map fun i => current ++ lits.take (i + 1)) ++
    (List.range lits.length).map fun i => current ++ lits.reverse.take (lits.length - 1 - i)

/-- The state of these loops: `sol` is the smallest answer so far and `mini` its size. -/
structure Search (n : ℕ) where
  state : State n
  sol : List (Lit n)
  mini : ℕ

/-- One call in a context; an answer of the same size replaces the one before it. -/
def tryContext (self : Call n) (half : List (Lit n)) (search : Search n)
    (context : List (Lit n)) : Option (Search n) := do
  let state ← self (search.state.soff.copyFrom context) half search.state.result
  if state.result.length ≤ search.mini then return ⟨state, state.result, state.result.length⟩
  else return { search with state := state }

/-- The two loops that look for a smallest part of one half. -/
def smallest (self : Call n) (half current lits : List (Lit n)) (state : State n) :
    Option (Search n) :=
  (contexts current lits).foldlM (tryContext self half) ⟨state, [], 10000⟩

/-- The function `reorder` keeps the literals that occur in the half. -/
def reorder (sol high : List (Lit n)) : List (Lit n) := sol.filter (· ∈ high)

/-- The branch of method 3. -/
def exhaustive (self : Call n) (soff : Solver n) (patHigh patLow result : List (Lit n)) :
    Option (State n) :=
  let current := soff.assumptions
  let low := solveA soff patLow
  if !low.1 then self (low.2.copyFrom current) patLow result
  else do
    let high ← smallest self patHigh current patLow ⟨low.2.copyFrom current, result⟩
    let solHighRe := reorder high.sol patHigh
    let low ← smallest self patLow current solHighRe high.state
    return ⟨low.state.soff, high.sol ++ low.sol⟩

/-- The body of `minimize` with its recursive calls as a parameter. -/
def minimizeStep (self : Call n) (sort : AscendingSort) (inputOrder : InputOrder) (method : ℤ)
    (soff : Solver n) (pat result : List (Lit n)) : Option (State n) :=
  if method = 1 then some (linear soff pat)
  else if method = 4 then
    let tried := linear soff (inputReorder sort pat inputOrder)
    some ⟨tried.soff, Bubble.sort Lit.var tried.result⟩
  else if pat.length = 1 then
    let answer := soff.solve soff.assumptions
    some ⟨answer.2, if answer.1 then pat else result⟩
  else
    let halves := divide pat
    if method = 2 then divideAndConquer self soff halves.1 halves.2 result
    else if method = 3 then exhaustive self soff halves.1 halves.2 result
    else some ⟨soff, []⟩

/-- The function `minimize`, with a bound on the depth of the recursion. -/
def minimize (sort : AscendingSort) (inputOrder : InputOrder) (method : ℤ) : ℕ → Call n
  | 0 => fun _ _ _ => none
  | fuel + 1 => minimizeStep (minimize sort inputOrder method fuel) sort inputOrder method

end LogicRegression.Minimize
