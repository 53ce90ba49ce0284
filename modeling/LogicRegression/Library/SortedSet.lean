import Mathlib.Tactic
import Mathlib.Data.List.Infix

namespace LogicRegression.SortedSet

variable {A : Type}

/-- An insertion keeps the order and drops a value that is equivalent to a present one. -/
def insert (before : A → A → Bool) (x : A) : List A → List A
  | [] => [x]
  | y :: items =>
      if before x y then x :: y :: items
      else if before y x then y :: insert before x items
      else y :: items

/-- The set after all insertions, listed in its order. -/
def ofList (before : A → A → Bool) (items : List A) : List A :=
  items.foldl (fun kept x => insert before x kept) []

/-- An insertion adds no other value. -/
theorem mem_of_mem_insert {before : A → A → Bool} {x y : A} {items : List A}
    (listed : y ∈ insert before x items) : y = x ∨ y ∈ items := by
  induction items with
  | nil => exact .inl (List.mem_singleton.mp listed)
  | cons z items ih =>
      unfold insert at listed
      split at listed
      · exact List.mem_cons.mp listed
      · split at listed
        · rcases List.mem_cons.mp listed with rfl | later
          · exact .inr (by simp)
          · exact (ih later).imp_right fun inside => List.mem_cons_of_mem z inside
        · exact .inr listed

/-- Two different values are always ordered, so an equivalent value is an equal one. -/
structure StrictOrder (before : A → A → Bool) : Prop where
  irrefl : ∀ x, before x x = false
  trans : ∀ x y z, before x y = true → before y z = true → before x z = true
  total : ∀ x y, before x y = false → before y x = false → x = y

section Order

variable {before : A → A → Bool} (order : StrictOrder before)
include order

/-- In a strict total order an insertion loses no value. -/
theorem mem_insert {x y : A} {items : List A} : y ∈ insert before x items ↔ y = x ∨ y ∈ items := by
  refine ⟨mem_of_mem_insert, fun known => ?_⟩
  induction items with
  | nil => simpa [insert] using known
  | cons z items ih =>
      unfold insert
      split
      · exact List.mem_cons.mpr known
      · next notFirst =>
          split
          · rcases known with rfl | inside
            · exact List.mem_cons_of_mem z (ih (.inl rfl))
            · rcases List.mem_cons.mp inside with rfl | later
              · simp
              · exact List.mem_cons_of_mem z (ih (.inr later))
          · next notAfter =>
              have same : x = z := order.total x z (by simpa using notFirst) (by simpa using notAfter)
              rcases known with rfl | inside
              · simp [same]
              · exact inside

theorem insert_pairwise {x : A} {items : List A}
    (sorted : items.Pairwise fun x y => before x y = true) :
    (insert before x items).Pairwise fun x y => before x y = true := by
  induction items with
  | nil => exact List.pairwise_singleton _ _
  | cons z items ih =>
      obtain ⟨first, rest⟩ := List.pairwise_cons.mp sorted
      unfold insert
      split
      · next earlier =>
          apply List.pairwise_cons.mpr ⟨?_, sorted⟩
          intro y inside
          rcases List.mem_cons.mp inside with rfl | later
          · exact earlier
          · exact order.trans x z y earlier (first y later)
      · split
        · next later =>
            apply List.pairwise_cons.mpr ⟨?_, ih rest⟩
            intro y inside
            rcases mem_of_mem_insert inside with rfl | present
            · exact later
            · exact first y present
        · exact sorted

/-- The set holds exactly the values that were inserted. -/
theorem mem_ofList {x : A} {items : List A} : x ∈ ofList before items ↔ x ∈ items := by
  have general (kept : List A) :
      x ∈ items.foldl (fun kept x => insert before x kept) kept ↔ x ∈ kept ∨ x ∈ items := by
    induction items generalizing kept with
    | nil => simp
    | cons y items ih =>
        rw [List.foldl_cons, ih, mem_insert order, List.mem_cons]
        tauto
  simpa [ofList] using general []

/-- The set lists its values in their strict order. -/
theorem ofList_pairwise (items : List A) :
    (ofList before items).Pairwise fun x y => before x y = true := by
  have general (kept : List A) (sorted : kept.Pairwise fun x y => before x y = true) :
      (items.foldl (fun kept x => insert before x kept) kept).Pairwise
        fun x y => before x y = true := by
    induction items generalizing kept with
    | nil => exact sorted
    | cons y items ih => exact ih _ (insert_pairwise order sorted)
  exact general [] List.Pairwise.nil

theorem ofList_nodup (items : List A) : (ofList before items).Nodup := by
  apply (ofList_pairwise order items).imp
  rintro x y earlier rfl
  rw [order.irrefl x] at earlier
  exact absurd earlier (by decide)

/-- A value of the set that is cut off comes after every value that stays. -/
theorem before_of_mem_take {items : List A} {count : ℕ} {x y : A}
    (stays : x ∈ (ofList before items).take count) (inserted : y ∈ items)
    (cut : y ∉ (ofList before items).take count) : before x y = true := by
  have listed := (mem_ofList order).mpr inserted
  have sorted := ofList_pairwise order items
  rw [← List.take_append_drop count (ofList before items)] at listed sorted
  have dropped := (List.mem_append.mp listed).resolve_left cut
  exact (List.pairwise_append.mp sorted).2.2 x stays y dropped

end Order

end LogicRegression.SortedSet
