import LogicRegression.Proof.SatOpt.PrimeCover

namespace LogicRegression.SatOpt

/-- Successive calls of `Reorder` share one vector: each call starts from the order that the
last one left behind. -/
def reorderAll (sorts : ℕ → StdSort) : InputOrder → List Text → List (Text × InputOrder)
  | _, [] => []
  | inputOrder, pat :: pats =>
      let result := reorder (sorts 0) inputOrder pat
      result :: reorderAll (fun call => sorts (call + 1)) result.2 pats

/-- The inputs whose places in the reordered string hold a dash. -/
def dashedInputs (inputOrder : InputOrder) (query : Text) : List ℕ :=
  ((inputOrder.zip query).filter fun place => place.2 = '-').map fun place => place.1.1

/-- Dashes stand at exactly these positions of the string. -/
def writeDashes (positions : List ℕ) (pat : Text) : Text :=
  pat.mapIdx fun position c => if position ∈ positions then '-' else c

@[simp] theorem reorderAll_length (sorts : ℕ → StdSort) (inputOrder : InputOrder)
    (pats : List Text) : (reorderAll sorts inputOrder pats).length = pats.length := by
  induction pats generalizing sorts inputOrder with
  | nil => rfl
  | cons pat pats ih => rw [reorderAll, List.length_cons, ih, List.length_cons]

/-- An input is dashed exactly when its own place holds a dash. -/
theorem mem_dashedInputs_iff {n : ℕ} {inputOrder : InputOrder} {query : Text}
    (order : IsOrder n inputOrder) {i : ℕ} {entry : ℕ × ℤ}
    (present : inputOrder[i]? = some entry) :
    entry.1 ∈ dashedInputs inputOrder query ↔ query[i]? = some '-' := by
  constructor
  · intro listed
    obtain ⟨place, kept, same⟩ := List.mem_map.mp listed
    obtain ⟨inside, dash⟩ := List.mem_filter.mp kept
    obtain ⟨j, found⟩ := List.mem_iff_getElem?.mp inside
    obtain ⟨placeEntry, placeValue⟩ := List.getElem?_zip_eq_some.mp found
    have index : j = i := by
      apply (List.getElem?_inj (by simpa using (List.getElem?_eq_some_iff.mp placeEntry).1)
        order.nodup).mp
      rw [List.getElem?_map, List.getElem?_map, placeEntry, present]
      simpa using same
    rw [← index, placeValue]
    simpa using dash
  · intro dash
    have listed : (entry, '-') ∈ inputOrder.zip query :=
      List.mem_iff_getElem?.mpr ⟨i, List.getElem?_zip_eq_some.mpr ⟨present, dash⟩⟩
    exact List.mem_map.mpr ⟨(entry, '-'), List.mem_filter.mpr ⟨listed, by simp⟩, rfl⟩

/-- A string that differs from the reordered one in dashes only goes back to the row with these
dashes. -/
theorem orderBack_dashes {n : ℕ} {inputOrder : InputOrder} {pat query : Text}
    (order : IsOrder n inputOrder) (size : pat.length = n) (querySize : query.length = n)
    (freed : ∀ i, i < n →
      query[i]? = some '-' ∨ query[i]? = (permuted inputOrder pat)[i]?) :
    orderBack inputOrder query = writeDashes (dashedInputs inputOrder query) pat := by
  apply List.ext_getElem?
  intro position
  by_cases inside : position < n
  · obtain ⟨i, entry, present, rfl⟩ := order.exists_entry inside
    have place : i < n := order.length_eq ▸ (List.getElem?_eq_some_iff.mp present).1
    rw [orderBack_getElem? order querySize present, writeDashes, List.getElem?_mapIdx]
    simp only [mem_dashedInputs_iff order present]
    by_cases dash : query[i]? = some '-'
    · simp [dash, size ▸ inside]
    · have same := (freed i place).resolve_left dash
      rw [same, permuted_getElem? order size present] at dash ⊢
      simp [dash]
  · rw [List.getElem?_eq_none (by rw [orderBack_length]; omega),
      List.getElem?_eq_none (by rw [writeDashes, List.length_mapIdx]; omega)]

/-- Every call of a run returns its row in a rearrangement of the first order. -/
theorem reorderAll_call {n : ℕ} (sorts : ℕ → StdSort) {initial : InputOrder}
    (order : IsOrder n initial) {pats : List Text} (sizes : ∀ pat ∈ pats, pat.length = n)
    {call : ℕ} {pat : Text} {result : Text × InputOrder} (passed : pats[call]? = some pat)
    (returned : (reorderAll sorts initial pats)[call]? = some result) :
    result.2.Perm initial ∧ result.1 = permuted result.2 pat := by
  induction pats generalizing sorts initial call with
  | nil => simp at passed
  | cons first pats ih =>
      have firstSize : first.length = n := sizes first (by simp)
      have lengths : initial.length = first.length := order.length_eq.trans firstSize.symm
      cases call with
      | zero =>
          obtain rfl : first = pat := by simpa using passed
          obtain rfl : reorder (sorts 0) initial first = result := by simpa [reorderAll] using returned
          exact ⟨reorder_perm (sorts 0) lengths, reorder_fst (sorts 0) lengths⟩
      | succ call =>
          have next := reorder_order (sorts 0) order firstSize
          have later := ih (fun call => sorts (call + 1)) next
            (fun other listed => sizes other (by simp [listed])) (by simpa using passed)
            (by simpa [reorderAll] using returned)
          exact ⟨later.1.trans (reorder_perm (sorts 0) lengths), later.2⟩

/-- No call of a run loses a score, and `Order_back` recovers each row and places each dash. -/
theorem reorder_lossless {n : ℕ} (sorts : ℕ → StdSort) {initial : InputOrder}
    (order : IsOrder n initial) {pats : List Text} (sizes : ∀ pat ∈ pats, pat.length = n) :
    (reorderAll sorts initial pats).length = pats.length ∧
    ∀ (call : ℕ) (pat : Text) (result : Text × InputOrder), pats[call]? = some pat →
      (reorderAll sorts initial pats)[call]? = some result →
      result.2.Perm initial ∧ orderBack result.2 result.1 = pat ∧
      ∀ query : Text, query.length = n →
        (∀ i, i < n → query[i]? = some '-' ∨ query[i]? = result.1[i]?) →
        orderBack result.2 query = writeDashes (dashedInputs result.2 query) pat := by
  constructor
  · exact reorderAll_length sorts initial pats
  · intro call pat result passed returned
    obtain ⟨perm, string⟩ := reorderAll_call sorts order sizes passed returned
    have current := order.perm perm
    have size := sizes pat (List.mem_of_getElem? passed)
    refine ⟨perm, ?_, fun query querySize freed => ?_⟩
    · rw [string]
      exact orderBack_permuted current size
    · rw [string] at freed
      exact orderBack_dashes current size querySize freed

theorem reorder_lossless_sample :
    (reorderAll (fun _ => stableSort) sampleOrder [['1', '0'], ['0', '1']]).length = 2 ∧
    ∀ result, (reorderAll (fun _ => stableSort) sampleOrder [['1', '0'], ['0', '1']])[1]? =
      some result → orderBack result.2 result.1 = ['0', '1'] := by
  have sizes : ∀ pat ∈ [['1', '0'], ['0', '1']], pat.length = 2 := by decide
  obtain ⟨calls, lossless⟩ := reorder_lossless (fun _ => stableSort) sampleOrder_isOrder sizes
  exact ⟨calls, fun result returned => (lossless 1 ['0', '1'] result (by rfl) returned).2.1⟩

example : reorderAll (fun _ => stableSort) sampleOrder [['1', '1'], ['0', '0']] =
    [(['1', '1'], [(1, -2), (0, 3)]), (['0', '0'], [(0, 3), (1, -2)])] := by decide

end LogicRegression.SatOpt
