import LogicRegression.Proof.SatOpt.LiteralOrder

namespace LogicRegression.SatOpt

open Binary LogicRegression.Cube

/-- The reference frees an input when no off-set row matches the freed cube. -/
def referenceTrial (patterns : Table) (cube : Text) (id : ℕ) : Text :=
  if ∃ row ∈ patterns, row.2 = ['0'] ∧ Covers '-' (cube.set id '-') row.1 then cube
  else cube.set id '-'

/-- It tries the inputs of a row in the order that `Reorder` leaves behind. -/
def referenceGrow (sort : StdSort) (patterns : Table) (inputOrder : InputOrder) (first : Text) :
    Text × InputOrder :=
  let after := (reorder sort inputOrder first).2
  ((after.map Prod.fst).foldl (referenceTrial patterns) first ++ ['1'], after)

/-- It grows each on-set row that no earlier cube covers. -/
def referenceStep (sorts : ℕ → StdSort) (patterns : Table) (progress : Progress)
    (pattern : Text × Text) : Progress :=
  if pattern.2 = ['1'] then
    if ∃ rPattern ∈ progress.resultPatterns, Covers '-' rPattern.dropLast pattern.1 then progress
    else
      let grown := referenceGrow (sorts progress.resultPatterns.length) patterns progress.inputOrder
        pattern.1
      ⟨grown.2, progress.resultPatterns ++ [grown.1]⟩
  else progress

def referencePatterns (sorts : ℕ → StdSort) (patterns : Table) (inputOrder : InputOrder) :
    List Text :=
  (patterns.foldl (referenceStep sorts patterns) ⟨inputOrder, []⟩).resultPatterns

section Grow

variable {n : ℕ} {patterns : Table} {inputOrder : InputOrder} (table : IsTable n patterns)
  (order : IsOrder n inputOrder)
include table order

/-- A cube meets the off-set in the order of the places exactly when it does so in the order of the
inputs. -/
theorem exists_off_iff {cube : Text} (size : cube.length = n) :
    (∃ row, IsBits row ∧ Covers '-' cube row ∧ permutedOff patterns inputOrder row = true) ↔
      ∃ row ∈ patterns, row.2 = ['0'] ∧ Covers '-' (orderBack inputOrder cube) row.1 := by
  constructor
  · rintro ⟨row, -, covers, off⟩
    have rowSize : row.length = n := covers.length_eq ▸ size
    refine ⟨(orderBack inputOrder row, ['0']), (isOff_iff table).mp off, rfl, ?_⟩
    rw [covers_orderBack_iff order size (by rw [orderBack_length, rowSize]),
      permuted_orderBack order rowSize]
    exact covers
  · intro ⟨row, listed, zero, covers⟩
    have rowSize := table.size row listed
    have off : OffSet patterns row.1 := by
      rw [OffSet, ← zero]
      exact listed
    refine ⟨permuted inputOrder row.1, permuted_isBits order rowSize (table.bits row listed), ?_, ?_⟩
    · exact (covers_orderBack_iff order size rowSize).mp covers
    · rw [permutedOff, orderBack_permuted order rowSize]
      exact (isOff_iff table).mpr off

variable (short : n ≤ 29) {first : Text} (on : OnSet patterns first)
include short on

/-- The half-space scan of a round asks whether an off-set row matches the freed cube. -/
theorem scanFails_cubeAt {i id : ℕ} (present : (inputOrder.map Prod.fst)[i]? = some id) :
    scanFails (halfSpace (first.getD id '\x00')) (permutedOff patterns inputOrder)
        (permuted inputOrder ((cubeAt halfSpace patterns inputOrder first i).set id '-')) = true ↔
      ∃ row ∈ patterns, row.2 = ['0'] ∧
        Covers '-' ((cubeAt halfSpace patterns inputOrder first i).set id '-') row.1 := by
  have size := table.size _ on
  obtain ⟨key, onset⟩ := permuted_isKey short table order on
  obtain ⟨entry, found, rfl⟩ : ∃ entry, inputOrder[i]? = some entry ∧ entry.1 = id := by
    rwa [List.getElem?_map, Option.map_eq_some_iff] at present
  have inside : i < (permuted inputOrder first).length := by
    rw [permuted_length]
    exact (List.getElem?_eq_some_iff.mp found).1
  have bit : first.getD entry.1 '\x00' = (permuted inputOrder first).getD i '\x00' := by
    rw [List.getD_eq_getElem?_getD, List.getD_eq_getElem?_getD, permuted_getElem? order size found]
  obtain ⟨string, below⟩ := foldl_expandStep soundSkip_halfSpace key onset inside.le
  have good := Greedy.grow_good (Hits (permutedOff patterns inputOrder) (permuted inputOrder first))
    (not_hits_empty key onset) (List.range i)
  generalize Greedy.grow (Hits (permutedOff patterns inputOrder) (permuted inputOrder first)) ∅
    (List.range i) = freed at string below good
  have stringSize : (masked '-' (permuted inputOrder first) freed).length = n := by
    rw [masked_length, permuted_length, order.length_eq]
  have cube : (cubeAt halfSpace patterns inputOrder first i).set entry.1 '-' =
      orderBack inputOrder (masked '-' (permuted inputOrder first) (insert i freed)) := by
    rw [cubeAt, dcStringAt, string, ← orderBack_set order stringSize found, masked_set_dash]
  have freedSize : (masked '-' (permuted inputOrder first) (insert i freed)).length = n := by
    rw [masked_length, permuted_length, order.length_eq]
  rw [bit, cube, permuted_orderBack order freedSize, ← exists_off_iff table order freedSize,
    ← hits_iff key]
  exact scanFails_halfSpace_iff key inside below good

/-- The cubes of the rounds are those of the reference. -/
theorem cubeAt_reference {i : ℕ} (within : i ≤ n) :
    cubeAt halfSpace patterns inputOrder first i =
      ((inputOrder.map Prod.fst).take i).foldl (referenceTrial patterns) first := by
  have tries : TriesInOrder halfSpace patterns first _ _ _ := cubeAt_tries order (table.size _ on)
  induction i with
  | zero => exact tries.start
  | succ i ih =>
      have inside : i < (inputOrder.map Prod.fst).length := by
        rw [List.length_map, order.length_eq]
        exact within
      have present := List.getElem?_eq_getElem inside
      rw [tries.trial i _ present, List.take_succ_eq_append_getElem inside, List.foldl_append,
        ← ih (Nat.le_of_succ_le within)]
      simp only [List.foldl_cons, List.foldl_nil, referenceTrial,
        scanFails_cubeAt table order short on present]

end Grow

section Run

variable {n : ℕ} {patterns : Table} {inputOrder : InputOrder} (positive : 1 ≤ n) (short : n ≤ 29)
  (table : IsTable n patterns)
include positive short table

/-- The expansion of an on-set row grows the cube of the reference. -/
theorem growPattern_reference (sort : StdSort) (order : IsOrder n inputOrder) {first : Text}
    (on : OnSet patterns first) :
    growPattern halfSpace sort n patterns inputOrder first =
      referenceGrow sort patterns inputOrder first := by
  have size := table.size _ on
  have after := reorder_order sort order size
  have result : (growPattern halfSpace sort n patterns inputOrder first).1 = _ :=
    (growPattern_tries sort order size).result
  have left : (growPattern halfSpace sort n patterns inputOrder first).2 =
      (reorder sort inputOrder first).2 := by
    rw [growPattern_eq sort (by omega)]
  refine Prod.ext ?_ left
  rw [result, left, List.length_map, after.length_eq,
    cubeAt_reference table after short on le_rfl, List.take_of_length_le]
  · rfl
  · rw [List.length_map, after.length_eq]

/-- The half-space shortcut grows the same sequence of cubes as the reference, which looks at the rows
of the table only. -/
theorem resultPatterns_reference (sorts : ℕ → StdSort) (order : IsOrder n inputOrder) :
    resultPatterns sorts n patterns inputOrder = referencePatterns sorts patterns inputOrder := by
  let holds (progress : Progress) : Prop := IsOrder n progress.inputOrder ∧
    ∀ result ∈ progress.resultPatterns, ∃ cube : Text, result = cube ++ ['1'] ∧ cube.length = n
  have nonzero : n ≠ 0 := by omega
  have start : holds ⟨inputOrder, []⟩ := ⟨order, fun _ none => absurd none List.not_mem_nil⟩
  apply congrArg Progress.resultPatterns
  apply Fold.foldl_congr start
  · rintro progress ⟨first, value⟩ listed ⟨current, cubes⟩
    unfold minimizeStep
    split
    · next one =>
        obtain rfl : value = ['1'] := one
        split
        · exact ⟨current, cubes⟩
        · obtain ⟨cube, grown, good⟩ := growPattern_isGrown
            (sorts progress.resultPatterns.length) nonzero short table current listed
            soundSkip_halfSpace
          refine ⟨current.perm (growPattern_perm _ nonzero table current listed halfSpace), ?_⟩
          intro result inside
          rcases List.mem_append.mp inside with earlier | last
          · exact cubes result earlier
          · exact ⟨cube, (List.mem_singleton.mp last).trans grown, good.size⟩
    · exact ⟨current, cubes⟩
  · rintro progress ⟨first, value⟩ listed ⟨current, cubes⟩
    have covered : (progress.resultPatterns.any fun rPattern => alreadyCovered rPattern first) =
        true ↔ ∃ rPattern ∈ progress.resultPatterns, Covers '-' rPattern.dropLast first := by
      rw [List.any_eq_true]
      refine exists_congr fun result => and_congr_right fun inside => ?_
      obtain ⟨cube, rfl, size⟩ := cubes result inside
      rw [List.dropLast_concat]
      exact alreadyCovered_iff (size.trans (table.size _ listed).symm)
    unfold minimizeStep referenceStep
    simp only [covered]
    split
    · next one =>
        obtain rfl : value = ['1'] := one
        rw [growPattern_reference positive short table _ current listed]
    · rfl

end Run

end LogicRegression.SatOpt
