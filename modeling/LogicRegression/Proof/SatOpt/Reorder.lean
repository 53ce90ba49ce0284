import LogicRegression.Construction.SatOpt
import LogicRegression.Library.Cube

namespace LogicRegression.SatOpt

open LogicRegression.Cube

/-- The first components of an order are a permutation of the positions. -/
def IsOrder (n : ℕ) (inputOrder : InputOrder) : Prop :=
  (inputOrder.map Prod.fst).Perm (List.range n)

theorem IsOrder.length_eq {n : ℕ} {inputOrder : InputOrder} (order : IsOrder n inputOrder) :
    inputOrder.length = n := by simpa using List.Perm.length_eq order

theorem IsOrder.nodup {n : ℕ} {inputOrder : InputOrder} (order : IsOrder n inputOrder) :
    (inputOrder.map Prod.fst).Nodup := (List.Perm.nodup_iff order).mpr List.nodup_range

theorem IsOrder.lt {n : ℕ} {inputOrder : InputOrder} (order : IsOrder n inputOrder)
    {entry : ℕ × ℤ} (listed : entry ∈ inputOrder) : entry.1 < n :=
  List.mem_range.mp ((List.Perm.mem_iff order).mp (List.mem_map_of_mem listed))

/-- Each position has an entry of the order. -/
theorem IsOrder.exists_entry {n : ℕ} {inputOrder : InputOrder} (order : IsOrder n inputOrder)
    {position : ℕ} (inside : position < n) :
    ∃ i : ℕ, ∃ entry : ℕ × ℤ, inputOrder[i]? = some entry ∧ entry.1 = position := by
  have listed := (List.Perm.mem_iff order).mpr (List.mem_range.mpr inside)
  obtain ⟨entry, present, same⟩ := List.mem_map.mp listed
  obtain ⟨i, found⟩ := List.mem_iff_getElem?.mp present
  exact ⟨i, entry, found, same⟩

theorem IsOrder.perm {n : ℕ} {first second : InputOrder} (order : IsOrder n first)
    (perm : second.Perm first) : IsOrder n second := (perm.map Prod.fst).trans order

/-- The string that `Reorder` reads off an order. -/
def permuted (inputOrder : InputOrder) (pat : Text) : Text :=
  inputOrder.map fun entry => pat.getD entry.1 '\x00'

@[simp] theorem permuted_length (inputOrder : InputOrder) (pat : Text) :
    (permuted inputOrder pat).length = inputOrder.length := by simp [permuted]

theorem permuted_getElem? {n : ℕ} {inputOrder : InputOrder} {pat : Text}
    (order : IsOrder n inputOrder) (size : pat.length = n) {i : ℕ} {entry : ℕ × ℤ}
    (present : inputOrder[i]? = some entry) : (permuted inputOrder pat)[i]? = pat[entry.1]? := by
  have inside : entry.1 < pat.length := size ▸ order.lt (List.mem_of_getElem? present)
  simp [permuted, present, inside]

/-- Writes at distinct positions leave each other alone. -/
theorem foldl_set_of_notMem (writes : List ((ℕ × ℤ) × Char)) (text : Text) {position : ℕ}
    (absent : position ∉ writes.map fun write => write.1.1) :
    (writes.foldl (fun reStr write => reStr.set write.1.1 write.2) text)[position]? =
      text[position]? := by
  induction writes generalizing text with
  | nil => rfl
  | cons write writes ih =>
      rw [List.map_cons, List.mem_cons, not_or] at absent
      rw [List.foldl_cons, ih _ absent.2, List.getElem?_set_ne (Ne.symm absent.1)]

/-- The fold of writes ends with the written value at each written position. -/
theorem foldl_set_of_mem (writes : List ((ℕ × ℤ) × Char)) (text : Text)
    (distinct : (writes.map fun write => write.1.1).Nodup) {write : (ℕ × ℤ) × Char}
    (listed : write ∈ writes) (inside : write.1.1 < text.length) :
    (writes.foldl (fun reStr entry => reStr.set entry.1.1 entry.2) text)[write.1.1]? =
      some write.2 := by
  induction writes generalizing text with
  | nil => simp at listed
  | cons head writes ih =>
      rw [List.map_cons, List.nodup_cons] at distinct
      rw [List.foldl_cons]
      cases listed with
      | head => rw [foldl_set_of_notMem _ _ distinct.1, List.getElem?_set_self inside]
      | tail _ later => exact ih _ distinct.2 later (by simpa using inside)

@[simp] theorem orderBack_length (inputOrder : InputOrder) (pat : Text) :
    (orderBack inputOrder pat).length = pat.length := by
  have general (writes : List ((ℕ × ℤ) × Char)) (text : Text) :
      (writes.foldl (fun reStr entry => reStr.set entry.1.1 entry.2) text).length =
        text.length := by
    induction writes generalizing text with
    | nil => rfl
    | cons write writes ih => rw [List.foldl_cons, ih, List.length_set]
  exact general _ _

/-- `Order_back` moves the character at place `i` to the input that the order names there. -/
theorem orderBack_getElem? {n : ℕ} {inputOrder : InputOrder} {pat : Text}
    (order : IsOrder n inputOrder) (size : pat.length = n) {i : ℕ} {entry : ℕ × ℤ}
    (present : inputOrder[i]? = some entry) : (orderBack inputOrder pat)[entry.1]? = pat[i]? := by
  obtain ⟨inOrder, rfl⟩ := List.getElem?_eq_some_iff.mp present
  have inside : i < pat.length := by have := order.length_eq; omega
  have names : (inputOrder.zip pat).map (fun write => write.1.1) = inputOrder.map Prod.fst := by
    rw [show (fun write : (ℕ × ℤ) × Char => write.1.1) = Prod.fst ∘ Prod.fst from rfl,
      ← List.map_map, List.map_fst_zip (by have := order.length_eq; omega)]
  have listed : (inputOrder[i], pat[i]) ∈ inputOrder.zip pat := by
    rw [List.mem_iff_getElem?]
    exact ⟨i, by simp [List.getElem?_zip_eq_some]⟩
  have target := foldl_set_of_mem _ pat (names ▸ order.nodup) listed
    (size ▸ order.lt (List.getElem_mem inOrder))
  rw [orderBack, target, List.getElem?_eq_getElem inside]

section Inverse

variable {n : ℕ} {inputOrder : InputOrder} (order : IsOrder n inputOrder)
include order

/-- Each string is read off from its image under `Order_back`. -/
theorem permuted_orderBack {pat : Text} (size : pat.length = n) :
    permuted inputOrder (orderBack inputOrder pat) = pat := by
  apply List.ext_getElem?
  intro i
  by_cases inside : i < n
  · have inOrder : i < inputOrder.length := order.length_eq ▸ inside
    have present := List.getElem?_eq_getElem inOrder
    rw [permuted_getElem? order (by simpa using size) present,
      orderBack_getElem? order size present]
  · rw [List.getElem?_eq_none (by rw [permuted_length, order.length_eq]; omega),
      List.getElem?_eq_none (by omega)]

/-- `Order_back` undoes the permutation. -/
theorem orderBack_permuted {pat : Text} (size : pat.length = n) :
    orderBack inputOrder (permuted inputOrder pat) = pat := by
  have permutedSize : (permuted inputOrder pat).length = n := by
    rw [permuted_length, order.length_eq]
  apply List.ext_getElem?
  intro position
  by_cases inside : position < n
  · obtain ⟨i, entry, present, rfl⟩ := order.exists_entry inside
    rw [orderBack_getElem? order permutedSize present, permuted_getElem? order size present]
  · rw [List.getElem?_eq_none (by rw [orderBack_length]; omega), List.getElem?_eq_none (by omega)]

/-- A cube covers a row exactly when the permuted forms agree. -/
theorem covers_orderBack_iff {cube row : Text} (cubeSize : cube.length = n)
    (rowSize : row.length = n) :
    Covers '-' (orderBack inputOrder cube) row ↔ Covers '-' cube (permuted inputOrder row) := by
  rw [covers_iff, covers_iff, orderBack_length, permuted_length, order.length_eq]
  refine and_congr (by omega) ⟨fun agree i c present => ?_, fun agree position c present => ?_⟩
  · have inOrder : i < inputOrder.length := by
      rw [order.length_eq, ← cubeSize]
      exact (List.getElem?_eq_some_iff.mp present).1
    have entry := List.getElem?_eq_getElem inOrder
    rw [permuted_getElem? order rowSize entry]
    exact agree _ c (by rwa [orderBack_getElem? order cubeSize entry])
  · have inside : position < n := by
      have := (List.getElem?_eq_some_iff.mp present).1
      rwa [orderBack_length, cubeSize] at this
    obtain ⟨i, entry, found, rfl⟩ := order.exists_entry inside
    rw [orderBack_getElem? order cubeSize found] at present
    have := agree i c present
    rwa [permuted_getElem? order rowSize found] at this

/-- A dash at one place becomes a dash at the named input. -/
theorem orderBack_set {cube : Text} (cubeSize : cube.length = n) {i : ℕ} {entry : ℕ × ℤ}
    (present : inputOrder[i]? = some entry) (c : Char) :
    orderBack inputOrder (cube.set i c) = (orderBack inputOrder cube).set entry.1 c := by
  have setSize : (cube.set i c).length = n := by simpa using cubeSize
  apply List.ext_getElem?
  intro position
  by_cases inside : position < n
  · obtain ⟨j, other, found, rfl⟩ := order.exists_entry inside
    rw [orderBack_getElem? order setSize found]
    by_cases same : i = j
    · subst same
      rw [present, Option.some.injEq] at found
      subst found
      rw [List.getElem?_set_self (by rw [cubeSize, ← order.length_eq]; exact
          (List.getElem?_eq_some_iff.mp present).1),
        List.getElem?_set_self (by rwa [orderBack_length, cubeSize])]
    · have different : entry.1 ≠ other.1 := by
        intro equal
        obtain ⟨inI, rfl⟩ := List.getElem?_eq_some_iff.mp present
        obtain ⟨inJ, rfl⟩ := List.getElem?_eq_some_iff.mp found
        have first : i < (inputOrder.map Prod.fst).length := by simpa using inI
        have second : j < (inputOrder.map Prod.fst).length := by simpa using inJ
        have entries : (inputOrder.map Prod.fst)[i] = (inputOrder.map Prod.fst)[j] := by
          simpa using equal
        exact same ((List.Nodup.getElem_inj_iff order.nodup).mp entries)
      rw [List.getElem?_set_ne same, List.getElem?_set_ne different,
        orderBack_getElem? order cubeSize found]
  · rw [List.getElem?_eq_none (by rw [orderBack_length]; omega),
      List.getElem?_eq_none (by rw [List.length_set, orderBack_length]; omega)]

end Inverse

/-- The sign change of one entry. -/
def negateOne (pat : Text) (entry : ℕ × ℤ) : ℕ × ℤ :=
  if pat[entry.1]? = some '1' then (entry.1, -entry.2) else entry

@[simp] theorem negateOne_fst (pat : Text) (entry : ℕ × ℤ) : (negateOne pat entry).1 = entry.1 := by
  unfold negateOne
  split <;> rfl

/-- The second sign change restores the score. -/
@[simp] theorem negateOne_negateOne (pat : Text) (entry : ℕ × ℤ) :
    negateOne pat (negateOne pat entry) = entry := by
  by_cases one : pat[entry.1]? = some '1' <;> simp [negateOne, one]

theorem negateOnes_eq_map {pat : Text} {inputOrder : InputOrder}
    (size : inputOrder.length = pat.length) :
    negateOnes pat inputOrder = inputOrder.map (negateOne pat) := by
  apply List.ext_getElem
  · simp [negateOnes]
  · intro i left right
    have inside : i < pat.length := by simpa [size] using right
    simp [negateOnes, negateOne, inside]

section Reorder

variable {n : ℕ} {inputOrder : InputOrder} {pat : Text} (sort : StdSort)

/-- `Reorder` rearranges the pairs and changes no score. -/
theorem reorder_perm (size : inputOrder.length = pat.length) :
    (reorder sort inputOrder pat).2.Perm inputOrder := by
  have sorted := sort.perm (negateOnes pat inputOrder)
  have sortedSize : (sort.run (negateOnes pat inputOrder)).length = pat.length := by
    rw [sorted.length_eq, negateOnes_eq_map size, List.length_map, size]
  change (negateOnes pat (sort.run (negateOnes pat inputOrder))).Perm inputOrder
  rw [negateOnes_eq_map sortedSize]
  have back := sorted.map (negateOne pat)
  rw [negateOnes_eq_map size, List.map_map] at back
  simpa [Function.comp_def, negateOnes_eq_map size] using back

/-- The returned string is the row read off the new order. -/
theorem reorder_fst (size : inputOrder.length = pat.length) :
    (reorder sort inputOrder pat).1 = permuted (reorder sort inputOrder pat).2 pat := by
  have sortedSize : (sort.run (negateOnes pat inputOrder)).length = pat.length := by
    rw [(sort.perm _).length_eq, negateOnes_eq_map size, List.length_map, size]
  change ((sort.run (negateOnes pat inputOrder)).take pat.length).map _ =
    permuted (negateOnes pat (sort.run (negateOnes pat inputOrder))) pat
  rw [negateOnes_eq_map sortedSize, ← sortedSize, List.take_length, permuted, List.map_map]
  apply List.map_congr_left
  intro entry _
  simp

theorem reorder_order (order : IsOrder n inputOrder) (size : pat.length = n) :
    IsOrder n (reorder sort inputOrder pat).2 :=
  order.perm (reorder_perm sort (by rw [order.length_eq, size]))

end Reorder

end LogicRegression.SatOpt
