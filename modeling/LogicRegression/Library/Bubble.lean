import Mathlib.Tactic

namespace LogicRegression.Bubble

variable {A K : Type} [LinearOrder K] (key : A → K)

/-- A pass compares neighbours from the front, this many times, and swaps those out of order. -/
def pass : ℕ → List A → List A
  | count + 1, x :: y :: rest =>
      if key x > key y then y :: pass count (x :: rest) else x :: pass count (y :: rest)
  | _, items => items

/-- Each pass leaves out the places that the passes before it have settled. -/
def sort (items : List A) : List A :=
  (List.range (items.length - 1)).foldl (fun items i => pass key (items.length - i - 1) items) items

/-- A pass over a front part moves an entry with the largest key to its end. -/
theorem pass_front {count : ℕ} {front : List A} (size : front.length = count + 1)
    (settled : List A) :
    ∃ others last, pass key count (front ++ settled) = others ++ last :: settled ∧
      (others ++ [last]).Perm front ∧ ∀ x ∈ others, key x ≤ key last := by
  induction count generalizing front with
  | zero =>
      obtain ⟨x, rfl⟩ := List.length_eq_one_iff.mp size
      exact ⟨[], x, by simp [pass], .refl _, by simp⟩
  | succ count ih =>
      match front with
      | [] => simp at size
      | [x] => simp at size
      | x :: y :: rest =>
          have shorter (z : A) : (z :: rest).length = count + 1 := by simpa using size
          simp only [List.cons_append, pass]
          split
          · next above =>
              obtain ⟨others, last, result, perm, below⟩ := ih (shorter x)
              have largest : key x ≤ key last := by
                rcases List.mem_append.mp (perm.symm.subset List.mem_cons_self) with inside | same
                · exact below x inside
                · exact (congrArg key (List.mem_singleton.mp same)).le
              rw [List.cons_append] at result
              rw [result]
              exact ⟨y :: others, last, rfl, (perm.cons y).trans (.swap x y rest),
                List.forall_mem_cons.mpr ⟨above.le.trans largest, below⟩⟩
          · next ordered =>
              obtain ⟨others, last, result, perm, below⟩ := ih (shorter y)
              have largest : key y ≤ key last := by
                rcases List.mem_append.mp (perm.symm.subset List.mem_cons_self) with inside | same
                · exact below y inside
                · exact (congrArg key (List.mem_singleton.mp same)).le
              rw [List.cons_append] at result
              rw [result]
              exact ⟨x :: others, last, rfl, perm.cons x,
                List.forall_mem_cons.mpr ⟨(le_of_not_gt ordered).trans largest, below⟩⟩

/-- After some passes the back part is settled: it is sorted and above the front. -/
structure Settled (count : ℕ) (items front back : List A) : Prop where
  perm : (front ++ back).Perm items
  size : back.length = count
  sorted : back.Pairwise fun x y => key x ≤ key y
  above : ∀ x ∈ front, ∀ y ∈ back, key x ≤ key y

variable {key}

/-- One more pass settles one more entry. -/
theorem Settled.pass {count : ℕ} {items front back : List A}
    (settled : Settled key count items front back) (room : count + 1 < items.length) :
    ∃ others last, Bubble.pass key ((front ++ back).length - count - 1) (front ++ back) =
        others ++ last :: back ∧ Settled key (count + 1) items others (last :: back) := by
  have total := settled.perm.length_eq
  rw [List.length_append, settled.size] at total
  have size : front.length = (front ++ back).length - count - 1 + 1 := by
    rw [List.length_append, settled.size]
    omega
  obtain ⟨others, last, result, perm, below⟩ := pass_front key size back
  have inFront {x : A} (listed : x ∈ others ++ [last]) : x ∈ front := perm.subset listed
  use others, last, result
  constructor
  · have both := perm.append_right back
    rw [List.append_assoc, List.singleton_append] at both
    exact both.trans settled.perm
  · rw [List.length_cons, settled.size]
  · rw [List.pairwise_cons]
    exact ⟨settled.above last (inFront (by simp)), settled.sorted⟩
  · intro x listed y member
    rcases List.mem_cons.mp member with rfl | later
    · exact below x listed
    · exact settled.above x (inFront (List.mem_append_left _ listed)) y later

variable (key)

/-- The passes settle as many entries as there were passes. -/
theorem passes_settled (items : List A) {count : ℕ} (room : count ≤ items.length - 1) :
    ∃ front back, (List.range count).foldl
        (fun items i => pass key (items.length - i - 1) items) items = front ++ back ∧
      Settled key count items front back := by
  induction count with
  | zero => exact ⟨items, [], by simp, by simp, rfl, .nil, by simp⟩
  | succ count ih =>
      obtain ⟨front, back, result, settled⟩ := ih (by omega)
      obtain ⟨others, last, next, after⟩ := settled.pass (by omega)
      rw [List.range_succ, List.foldl_append, result]
      exact ⟨others, last :: back, next, after⟩

/-- The sort keeps the entries and puts them in the order of their keys. -/
theorem sort_spec (items : List A) :
    (sort key items).Perm items ∧ (sort key items).Pairwise fun x y => key x ≤ key y := by
  obtain ⟨front, back, result, settled⟩ := passes_settled key items le_rfl
  rw [sort, result]
  have few : front.length ≤ 1 := by
    have total := settled.perm.length_eq
    rw [List.length_append, settled.size] at total
    omega
  have single : front.Pairwise fun x y => key x ≤ key y := by
    match front with
    | [] => exact .nil
    | [x] => exact List.pairwise_singleton _ x
    | x :: y :: rest => simp at few
  exact ⟨settled.perm, List.pairwise_append.mpr ⟨single, settled.sorted, settled.above⟩⟩

end LogicRegression.Bubble
