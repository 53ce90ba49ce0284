import LogicRegression.Proof.SatOpt.LiteralOrder

namespace LogicRegression.SatOpt

open Text Binary

/-- An access that uses an element of its container. -/
def Access.InRange (access : Access) : Prop := access.index < access.size

/-- The list `dc_pos` may be fetched one place behind its end, all else is in range. -/
def Access.Bounded (access : Access) : Prop :=
  access.InRange ∨ access.container = .dcPos ∧ access.index = access.size

section Expansion

variable {n size k cnt : ℕ} {dcPos : List ℕ} {bin rest pat : Text} {inputOrder : InputOrder}
  {P : Access → Prop}

/-- The shared counter never passes the end of the list by more than one place. -/
theorem queryAccesses_bounded (counted : cnt ≤ dcPos.length) (place : k + rest.length ≤ size) :
    ∀ access ∈ queryAccesses size dcPos bin k cnt rest, access.Bounded := by
  induction rest generalizing k cnt with
  | nil => simp [queryAccesses]
  | cons c rest ih =>
      rw [List.length_cons] at place
      rw [queryAccesses, List.forall_mem_cons]
      constructor
      · exact counted.lt_or_eq.imp id fun ended => ⟨rfl, ended⟩
      · split
        · next found =>
            have inside : cnt < dcPos.length := (List.getElem?_eq_some_iff.mp found.1).1
            rw [List.forall_mem_cons, List.forall_mem_cons]
            exact ⟨.inl (show k < size by omega), .inl found.2, ih inside (by omega)⟩
        · exact ih counted (by omega)

/-- All accesses of `Order_back` are in range. -/
theorem orderBackAccesses_inRange (order : IsOrder n inputOrder) (length : pat.length = n) :
    ∀ access ∈ orderBackAccesses inputOrder pat, access.InRange := by
  intro access listed
  obtain ⟨i, inside, made⟩ := List.mem_flatMap.mp listed
  rw [List.mem_range, length] at inside
  rcases List.mem_cons.mp made with rfl | made
  · exact order.length_eq.symm ▸ inside
  · obtain ⟨entry, found, rfl⟩ := List.mem_map.mp made
    exact length.symm ▸ order.lt (List.mem_of_getElem? (Option.mem_toList.mp found))

theorem queryPattern_length :
    (queryPattern dcPos bin k cnt rest).length = rest.length := by
  induction rest generalizing k cnt with
  | nil => rfl
  | cons c rest ih =>
      rw [queryPattern]
      split
      · rw [List.length_cons, List.length_cons, ih]
      · rw [List.length_cons, List.length_cons, ih]

/-- What all lookups of a scan keep holds of the scan. -/
theorem scanAccesses_all {skip : ℕ → Bool} {isOff : Text → Bool}
    {backAccesses : Text → List Access} {dcString : Text}
    (query : ∀ bin, ∀ access ∈ queryAccesses dcString.length (dcPositions 0 dcString) bin 0 0
      dcString, P access)
    (back : ∀ pat, pat.length = dcString.length → ∀ access ∈ backAccesses pat, P access)
    (js : List ℕ) : ∀ access ∈ scanAccesses skip isOff backAccesses dcString js, P access := by
  induction js with
  | nil => simp [scanAccesses]
  | cons j js ih =>
      rw [scanAccesses]
      split
      · exact ih
      · rw [List.forall_mem_append, List.forall_mem_append]
        refine ⟨⟨query _, back _ queryPattern_length⟩, ?_⟩
        split
        · simp
        · exact ih

/-- What all lookups of the rounds keep holds of the expansion. -/
theorem expandAccesses_all {skip : Char → ℕ → Bool} {isOff : Text → Bool}
    {backAccesses : Text → List Access} {inputPat dcString : Text} (length : dcString.length = n)
    (query : ∀ freed : Text, freed.length = n → '-' ∈ freed → ∀ bin,
      ∀ access ∈ queryAccesses n (dcPositions 0 freed) bin 0 0 freed, P access)
    (back : ∀ pat : Text, pat.length = n → ∀ access ∈ backAccesses pat, P access) {is : List ℕ}
    (inside : ∀ i ∈ is, i < n) :
    ∀ access ∈ expandAccesses skip isOff backAccesses inputPat dcString is, P access := by
  induction is generalizing dcString with
  | nil => exact back dcString length
  | cons i is ih =>
      obtain ⟨first, inside⟩ := List.forall_mem_cons.mp inside
      have freed : (dcString.set i '-').length = n := by rw [List.length_set, length]
      have dashed : '-' ∈ dcString.set i '-' := List.mem_set (by omega) _
      rw [expandAccesses, List.forall_mem_append]
      constructor
      · apply scanAccesses_all
        · rw [freed]
          exact query _ freed dashed
        · rw [freed]
          exact back
      · exact ih (expandStep_length.trans length) inside

variable {skip : Char → ℕ → Bool} {sort : StdSort} {patterns : Table} {first : Text}

/-- What the loop over `k` keeps holds of the growth of a row, when it allows accesses in range. -/
theorem growAccesses_all (order : IsOrder n inputOrder) (length : first.length = n)
    (inRange : ∀ access : Access, access.InRange → P access)
    (query : ∀ freed : Text, freed.length = n → '-' ∈ freed → ∀ bin,
      ∀ access ∈ queryAccesses n (dcPositions 0 freed) bin 0 0 freed, P access) :
    ∀ access ∈ growAccesses skip sort n patterns inputOrder first, P access := by
  have same : inputOrder.length = first.length := order.length_eq.trans length.symm
  rw [growAccesses]
  by_cases positive : n ≠ 0
  · have newOrder := reorder_order sort order length
    have newLength : (reorder sort inputOrder first).1.length = n := by
      rw [reorder_fst sort same, permuted_length, newOrder.length_eq]
    simp only [if_pos positive, newLength]
    exact expandAccesses_all newLength query (fun pat size access listed =>
      inRange access (orderBackAccesses_inRange newOrder size access listed))
      fun i => List.mem_range.mp
  · obtain rfl : n = 0 := by omega
    obtain rfl := List.eq_nil_of_length_eq_zero length
    simp [expandAccesses]

/-- An expansion reads at most one place behind `dc_pos`. -/
theorem growAccesses_bounded (order : IsOrder n inputOrder) (length : first.length = n) :
    ∀ access ∈ growAccesses skip sort n patterns inputOrder first, access.Bounded :=
  growAccesses_all order length (fun _ => .inl) fun freed size _ _ =>
    queryAccesses_bounded (Nat.zero_le _) (by omega)

/-- With at most one input all accesses are in range. -/
theorem growAccesses_inRange (order : IsOrder n inputOrder) (length : first.length = n)
    (single : n ≤ 1) :
    ∀ access ∈ growAccesses skip sort n patterns inputOrder first, access.InRange := by
  apply growAccesses_all order length fun _ => id
  intro freed size dashed bin
  have one : freed.length = 1 := by
    have positive := List.length_pos_of_mem dashed
    omega
  obtain ⟨c, rfl⟩ := List.length_eq_one_iff.mp one
  obtain rfl := List.mem_singleton.mp dashed
  have positions : dcPositions 0 ['-'] = [0] := rfl
  obtain rfl : n = 1 := size.symm
  rw [positions, queryAccesses, List.forall_mem_cons]
  constructor
  · exact Nat.zero_lt_one
  · split
    · next found =>
        rw [List.forall_mem_cons, List.forall_mem_cons]
        exact ⟨Nat.zero_lt_one, found.2, by simp [queryAccesses]⟩
    · simp [queryAccesses]

end Expansion

section Overrun

variable {n : ℕ} {inputOrder initial : InputOrder} {patterns : Table} {first rest : Text}

/-- The fetch behind a list of one dash. -/
def overrun : Access := ⟨.dcPos, 1, 1⟩

/-- A freed first position leaves the counter behind the list in the next round. -/
theorem overrun_query {size : ℕ} {bin : Text} {c : Char} (filled : 0 < bin.length) :
    overrun ∈ queryAccesses size [0] bin 0 0 ('-' :: c :: rest) := by
  rw [queryAccesses, if_pos ⟨rfl, filled⟩, queryAccesses]
  simp [overrun]

/-- The first assignment that is not skipped is looked up. -/
theorem mem_scanAccesses {skip : ℕ → Bool} {isOff : Text → Bool}
    {backAccesses : Text → List Access} {dcString : Text} {access : Access}
    (query : ∀ j, access ∈ queryAccesses dcString.length (dcPositions 0 dcString)
      ((int2Binary (toInt j)).leftpad (dcPositions 0 dcString).length '0') 0 0 dcString)
    {js : List ℕ} (used : ∃ j ∈ js, skip j = false) :
    access ∈ scanAccesses skip isOff backAccesses dcString js := by
  induction js with
  | nil => simp at used
  | cons j js ih =>
      rw [scanAccesses]
      by_cases skipped : skip j
      · rw [if_pos skipped]
        obtain ⟨other, listed, kept⟩ := used
        rcases List.mem_cons.mp listed with rfl | later
        · exact absurd kept (by rw [skipped]; decide)
        · exact ih ⟨other, later, kept⟩
      · rw [if_neg skipped]
        exact List.mem_append_left _ (List.mem_append_left _ (query j))

/-- One of the two values of a single dash is not skipped. -/
theorem exists_unskipped (recordBit : Char) :
    ∃ j ∈ List.range (2 ^ 1), halfSpace recordBit j = false := by
  by_cases zero : recordBit = '0'
  · exact ⟨1, by decide, by rw [zero]; decide⟩
  · exact ⟨0, by decide, by simp [halfSpace, zero]⟩

/-- The first round of an expansion over two inputs or more reads behind the list. -/
theorem overrun_step {isOff : Text → Bool} {backAccesses : Text → List Access} {c d : Char}
    (solid : '-' ∉ d :: rest) :
    overrun ∈ stepAccesses halfSpace isOff backAccesses (c :: d :: rest) 0 := by
  have none : dcPositions 1 (d :: rest) = [] := by
    rw [← List.length_eq_zero_iff, dcPositions_length, List.count_eq_zero_of_not_mem solid]
  have one : dcPositions 0 ('-' :: d :: rest) = [0] := by
    rw [dcPositions, if_pos rfl, none]
  change overrun ∈ scanAccesses _ isOff backAccesses ('-' :: d :: rest)
    (List.range (2 ^ (dcPositions 0 ('-' :: d :: rest)).length))
  rw [one]
  apply mem_scanAccesses _ (exists_unskipped _)
  intro j
  rw [one]
  exact overrun_query (by rw [List.length_leftpad]; exact lt_max_of_lt_left Nat.zero_lt_one)

/-- Each expansion over two inputs or more reads behind the list. -/
theorem overrun_growAccesses (sort : StdSort) (order : IsOrder n inputOrder)
    (length : first.length = n) (isBits : IsBits first) (several : 2 ≤ n) :
    overrun ∈ growAccesses halfSpace sort n patterns inputOrder first := by
  have newOrder := reorder_order sort order length
  have string := reorder_fst sort (order.length_eq.trans length.symm)
  have solid : '-' ∉ (reorder sort inputOrder first).1 := by
    rw [string]
    intro dashed
    obtain ⟨entry, listed, same⟩ := List.mem_map.mp dashed
    have inside : entry.1 < first.length := length ▸ newOrder.lt listed
    rw [List.getD_eq_getElem _ _ inside] at same
    exact isBits_solid isBits (same ▸ List.getElem_mem inside)
  have newLength : (reorder sort inputOrder first).1.length = n := by
    rw [string, permuted_length, newOrder.length_eq]
  obtain ⟨c, d, rest, row⟩ : ∃ c d rest, (reorder sort inputOrder first).1 = c :: d :: rest := by
    match text : (reorder sort inputOrder first).1 with
    | [] => simp [text] at newLength; omega
    | [c] => simp [text] at newLength; omega
    | c :: d :: rest => exact ⟨c, d, rest, rfl⟩
  have positive : n ≠ 0 := by omega
  rw [row, List.mem_cons, not_or] at solid
  rw [growAccesses]
  simp only [if_pos positive, row, List.length_cons, List.range_succ_eq_map, expandAccesses]
  exact List.mem_append_left _ (overrun_step solid.2)

/-- The accesses of the expansion of a row in the state that the traversal reaches. -/
def accessesAt (sorts : ℕ → StdSort) (n : ℕ) (patterns : Table) (initial : InputOrder) (index : ℕ)
    (first : Text) : List Access :=
  let progress := progressAt sorts n patterns initial index
  growAccesses halfSpace (sorts progress.resultPatterns.length) n patterns progress.inputOrder first

/-- The first on-set row of the traversal is expanded. -/
theorem exists_expands (sorts : ℕ → StdSort) (initial : InputOrder)
    (onset : ∃ row ∈ patterns, row.2 = ['1']) :
    ∃ index first, Expands sorts n patterns initial index first := by
  obtain ⟨⟨first, value⟩, found⟩ := Option.isSome_iff_exists.mp
    (List.find?_isSome (p := fun row : Text × Text => decide (row.2 = ['1'])).mpr
      (by simpa using onset))
  obtain ⟨isOn, before, after, rfl, offs⟩ := List.find?_eq_some_iff_append.mp found
  obtain rfl : value = ['1'] := of_decide_eq_true isOn
  have reached : progressAt sorts n (before ++ (first, ['1']) :: after) initial before.length =
      ⟨initial, []⟩ := by
    rw [progressAt, List.take_left]
    apply List.foldlRecOn (motive := (· = Progress.mk initial [])) _ _ rfl
    intro progress same row listed
    rw [minimizeStep, if_neg (by simpa using offs row listed), same]
  exact ⟨before.length, first, by rw [List.getElem?_append_right le_rfl, Nat.sub_self]; rfl,
    by rw [reached]; rfl⟩

/-- All expansions stay in range exactly with at most one input or an empty on-set. -/
theorem accesses_inRange_iff (sorts : ℕ → StdSort)
    (size : ∀ row ∈ patterns, row.1.length = n) (minterms : ∀ row ∈ patterns, IsBits row.1)
    (order : IsOrder n initial) :
    (∀ index first, Expands sorts n patterns initial index first →
      ∀ access ∈ accessesAt sorts n patterns initial index first, access.InRange) ↔
      n ≤ 1 ∨ ∀ row ∈ patterns, row.2 ≠ ['1'] := by
  constructor
  · intro safe
    by_contra neither
    rw [not_or] at neither
    obtain ⟨index, first, expands⟩ := exists_expands (n := n) sorts initial
      (by simpa using neither.2)
    have listed := List.mem_of_getElem? expands.1
    have newOrder := order.perm (progressAt_order sorts size order index)
    have behind := safe index first expands overrun
      (overrun_growAccesses _ newOrder (size _ listed) (minterms _ listed) (by omega))
    exact absurd behind (Nat.lt_irrefl 1)
  · intro condition index first expands
    have listed := List.mem_of_getElem? expands.1
    have newOrder := order.perm (progressAt_order sorts size order index)
    cases condition with
    | inl single => exact growAccesses_inRange newOrder (size _ listed) single
    | inr empty => exact absurd rfl (empty _ listed)

/-- The table of one input that is copied to the output. -/
def copyTable : Table := [(['1'], ['1']), (['0'], ['0'])]

theorem accesses_inRange_iff_copy :
    Expands (fun _ => stableSort) 1 copyTable [(0, 2)] 0 ['1'] ∧
      ∀ access ∈ accessesAt (fun _ => stableSort) 1 copyTable [(0, 2)] 0 ['1'],
        access.InRange := by
  have expands : Expands (fun _ => stableSort) 1 copyTable [(0, 2)] 0 ['1'] := ⟨rfl, rfl⟩
  exact ⟨expands, (accesses_inRange_iff (fun _ => stableSort) (by decide) (by decide)
    (by unfold IsOrder; decide)).mpr (.inl le_rfl) 0 ['1'] expands⟩

/-- With two inputs the first round already reads behind the list. -/
theorem accesses_out_of_range :
    ¬ ∀ (sorts : ℕ → StdSort) (n : ℕ) (patterns : Table) (initial : InputOrder),
      IsTable n patterns → IsOrder n initial →
      ∀ index first, Expands sorts n patterns initial index first →
        ∀ access ∈ accessesAt sorts n patterns initial index first, access.InRange := by
  intro safe
  have expands : Expands (fun _ => stableSort) 2 sampleTable sampleOrder 0 ['1', '1'] :=
    ⟨rfl, rfl⟩
  have behind := safe (fun _ => stableSort) 2 sampleTable sampleOrder sampleTable_isTable
    sampleOrder_isOrder 0 ['1', '1'] expands overrun
    (overrun_growAccesses _ sampleOrder_isOrder rfl (by decide) le_rfl)
  exact absurd behind (Nat.lt_irrefl 1)

end Overrun

end LogicRegression.SatOpt
