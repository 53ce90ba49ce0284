import Mathlib.Tactic
import Mathlib.Data.List.Forall2
import Mathlib.Data.Finset.Basic

namespace LogicRegression.Cube

variable {A : Type} (dash : A)

/-- A cube covers a row that agrees with it outside the dashes. -/
def Covers (cube row : List A) : Prop := List.Forall₂ (fun c a => c = dash ∨ c = a) cube row

instance [DecidableEq A] (cube row : List A) : Decidable (Covers dash cube row) :=
  inferInstanceAs (Decidable (List.Forall₂ _ _ _))

variable {dash}

theorem Covers.length_eq {cube row : List A} (covers : Covers dash cube row) :
    cube.length = row.length := List.Forall₂.length_eq covers

@[simp] theorem covers_nil : Covers dash [] [] := List.Forall₂.nil

@[simp] theorem covers_cons {c a : A} {cube row : List A} :
    Covers dash (c :: cube) (a :: row) ↔ (c = dash ∨ c = a) ∧ Covers dash cube row :=
  List.forall₂_cons

/-- The positions decide the cover relation. -/
theorem covers_iff {cube row : List A} :
    Covers dash cube row ↔ cube.length = row.length ∧
      ∀ (i : ℕ) (c : A), cube[i]? = some c → c = dash ∨ row[i]? = some c := by
  constructor
  · intro covers
    refine ⟨covers.length_eq, fun i c present => ?_⟩
    obtain ⟨inside, rfl⟩ := List.getElem?_eq_some_iff.mp present
    have inRow : i < row.length := covers.length_eq ▸ inside
    rcases (List.forall₂_iff_get.mp covers).2 i inside inRow with dashed | equal
    · exact .inl dashed
    · exact .inr (by simpa [inRow] using equal.symm)
  · intro ⟨sameLength, agree⟩
    refine List.forall₂_iff_get.mpr ⟨sameLength, fun i inside inRow => ?_⟩
    rcases agree i _ (List.getElem?_eq_getElem inside) with dashed | equal
    · exact .inl dashed
    · exact .inr (by simpa [inRow] using equal.symm)

/-- This cube frees the chosen positions of a row. -/
def masked (dash : A) (row : List A) (freed : Finset ℕ) : List A :=
  row.mapIdx fun i a => if i ∈ freed then dash else a

@[simp] theorem masked_length (row : List A) (freed : Finset ℕ) :
    (masked dash row freed).length = row.length := by simp [masked]

@[simp] theorem masked_getElem? (row : List A) (freed : Finset ℕ) (i : ℕ) :
    (masked dash row freed)[i]? = row[i]?.map fun a => if i ∈ freed then dash else a := by
  simp [masked]

@[simp] theorem masked_empty (row : List A) : masked dash row ∅ = row := by
  apply List.ext_getElem?
  intro i
  simp

/-- A solid character of a masked row comes from the row. -/
theorem mem_masked {row : List A} {freed : Finset ℕ} {c : A}
    (listed : c ∈ masked dash row freed) : c = dash ∨ c ∈ row := by
  obtain ⟨i, present⟩ := List.mem_iff_getElem?.mp listed
  rw [masked_getElem?, Option.map_eq_some_iff] at present
  obtain ⟨a, inRow, rfl⟩ := present
  split
  · exact .inl rfl
  · exact .inr (List.mem_of_getElem? inRow)

/-- Writing a dash frees one more position. -/
theorem masked_set_dash (row : List A) (freed : Finset ℕ) (i : ℕ) :
    (masked dash row freed).set i dash = masked dash row (insert i freed) := by
  apply List.ext_getElem?
  intro j
  by_cases same : i = j
  · subst same
    simp only [List.getElem?_set_self', masked_getElem?]
    cases row[i]? <;> simp
  · simp [List.getElem?_set_ne same, Ne.symm same]

/-- Writing the old value back undoes the last freeing. -/
theorem masked_set_back {row : List A} {freed : Finset ℕ} {i : ℕ} {a : A} (kept : i ∉ freed)
    (present : row[i]? = some a) :
    (masked dash row (insert i freed)).set i a = masked dash row freed := by
  apply List.ext_getElem?
  intro j
  by_cases same : i = j
  · subst same
    simp [List.getElem?_set_self', present, kept]
  · simp [List.getElem?_set_ne same, Ne.symm same]

/-- A masked row covers exactly the rows that agree with it at the kept positions. -/
theorem covers_masked_iff {row other : List A} {freed : Finset ℕ} (solid : dash ∉ row) :
    Covers dash (masked dash row freed) other ↔
      row.length = other.length ∧ ∀ i, i ∉ freed → other[i]? = row[i]? := by
  rw [covers_iff, masked_length]
  refine and_congr_right fun sameLength => forall_congr' fun i => ?_
  rw [masked_getElem?]
  rcases present : row[i]? with _ | a
  · have outside : other.length ≤ i := by
      rw [← sameLength]; exact List.getElem?_eq_none_iff.mp present
    simp [outside]
  · have different : a ≠ dash := fun same => solid (same ▸ List.mem_of_getElem? present)
    by_cases inside : i ∈ freed <;> simp [inside, different]

/-- More freed positions cover more rows. -/
theorem covers_masked_mono {row other : List A} {small large : Finset ℕ} (solid : dash ∉ row)
    (subset : small ⊆ large) (covers : Covers dash (masked dash row small) other) :
    Covers dash (masked dash row large) other := by
  rw [covers_masked_iff solid] at covers ⊢
  exact ⟨covers.1, fun i kept => covers.2 i fun inside => kept (subset inside)⟩

variable [DecidableEq A]

/-- This row replaces the dashes of a cube by successive values. -/
def fill (dash : A) : List A → List A → List A
  | [], _ => []
  | c :: cube, values =>
      if c = dash then
        match values with
        | [] => c :: fill dash cube []
        | v :: values => v :: fill dash cube values
      else c :: fill dash cube values

@[simp] theorem fill_nil (values : List A) : fill dash [] values = [] := by simp [fill]

@[simp] theorem fill_dash (cube values : List A) (v : A) :
    fill dash (dash :: cube) (v :: values) = v :: fill dash cube values := by simp [fill]

theorem fill_cons {c : A} (solid : c ≠ dash) (cube values : List A) :
    fill dash (c :: cube) values = c :: fill dash cube values := by simp [fill, solid]

/-- A row without dashes is already filled. -/
theorem fill_solid {row : List A} (solid : dash ∉ row) (values : List A) :
    fill dash row values = row := by
  induction row with
  | nil => simp
  | cons a row ih =>
      rw [List.mem_cons, not_or] at solid
      rw [fill_cons (Ne.symm solid.1), ih solid.2]

/-- The last value goes to the last dash. -/
theorem fill_last {front back values : List A} (solid : dash ∉ back) (v : A)
    (count : values.length = front.count dash) :
    fill dash (front ++ dash :: back) (values ++ [v]) = fill dash front values ++ v :: back := by
  induction front generalizing values with
  | nil => simp [List.length_eq_zero_iff.mp count, fill_solid solid]
  | cons c front ih =>
      by_cases dashed : c = dash
      · subst dashed
        cases values with
        | nil => simp at count
        | cons w values => simp [ih (by simpa using count)]
      · simp [fill_cons dashed, ih (by simpa [dashed] using count)]

/-- A cube covers each of its filled rows. -/
theorem covers_fill {cube values : List A} (count : values.length = cube.count dash) :
    Covers dash cube (fill dash cube values) := by
  induction cube generalizing values with
  | nil => simp
  | cons c cube ih =>
      by_cases dashed : c = dash
      · subst dashed
        cases values with
        | nil => simp at count
        | cons v values => simpa using ih (by simpa using count)
      · simpa [fill_cons dashed] using ih (by simpa [dashed] using count)

/-- A filled row has only values and solid characters of the cube. -/
theorem mem_fill {cube values : List A} (count : values.length = cube.count dash) {a : A}
    (listed : a ∈ fill dash cube values) : a ∈ values ∨ a ∈ cube ∧ a ≠ dash := by
  induction cube generalizing values with
  | nil => simp at listed
  | cons c cube ih =>
      by_cases dashed : c = dash
      · subst dashed
        cases values with
        | nil => simp at count
        | cons v values =>
            rw [fill_dash, List.mem_cons] at listed
            rcases listed with rfl | later
            · simp
            · rcases ih (by simpa using count) later with inside | inside
              · exact .inl (List.mem_cons_of_mem _ inside)
              · exact .inr ⟨List.mem_cons_of_mem _ inside.1, inside.2⟩
      · rw [fill_cons dashed, List.mem_cons] at listed
        rcases listed with rfl | later
        · exact .inr ⟨by simp, dashed⟩
        · rcases ih (by simpa [dashed] using count) later with inside | inside
          · exact .inl inside
          · exact .inr ⟨List.mem_cons_of_mem _ inside.1, inside.2⟩

/-- Each covered row comes from the values that it has at the dashes. -/
theorem exists_fill {cube row : List A} (covers : Covers dash cube row) :
    ∃ values : List A, values.length = cube.count dash ∧ (∀ v ∈ values, v ∈ row) ∧
      fill dash cube values = row := by
  induction covers with
  | nil => exact ⟨[], by simp⟩
  | @cons c a cube row head tail ih =>
      obtain ⟨values, count, listed, rfl⟩ := ih
      by_cases dashed : c = dash
      · subst dashed
        refine ⟨a :: values, by simp [count], ?_, by simp⟩
        intro v inside
        rcases List.mem_cons.mp inside with rfl | later
        · simp
        · exact List.mem_cons_of_mem _ (listed v later)
      · refine ⟨values, by simp [dashed, count], fun v inside => ?_, ?_⟩
        · exact List.mem_cons_of_mem _ (listed v inside)
        · rw [fill_cons dashed, head.resolve_left dashed]

/-- A cube is prime when each further dash makes it cover a row of the off-set. -/
def Prime (dash : A) (off : List A → Prop) (cube : List A) : Prop :=
  ∀ i c, cube[i]? = some c → c ≠ dash → ∃ row, off row ∧ Covers dash (cube.set i dash) row

/-- A cube contains another when it covers each admissible row that the other covers. -/
def Contains (dash : A) (admissible : A → Prop) (big small : List A) : Prop :=
  ∀ row, (∀ a ∈ row, admissible a) → Covers dash small row → Covers dash big row

/-- Containment is decided position by position when two values are admissible. -/
theorem contains_getElem? {admissible : A → Prop} {big small : List A}
    (choice : ∀ a, ∃ b, admissible b ∧ b ≠ a) (sameLength : big.length = small.length)
    (values : ∀ c ∈ small, c = dash ∨ admissible c)
    (contains : Contains dash admissible big small) (i : ℕ) :
    big[i]? = some dash ∨ big[i]? = small[i]? := by
  choose other otherAdmissible otherNe using choice
  let row := List.zipWith (fun s b => if s = dash then other b else s) small big
  have rowAt (j : ℕ) (inSmall : j < small.length) (inBig : j < big.length) :
      row[j]? = some (if small[j] = dash then other big[j] else small[j]) := by
    simp [row, inSmall, inBig]
  have rowLength : row.length = small.length := by simp [row, sameLength]
  have covered : Covers dash small row := by
    rw [covers_iff]
    refine ⟨rowLength.symm, fun j c present => ?_⟩
    obtain ⟨inside, rfl⟩ := List.getElem?_eq_some_iff.mp present
    rw [rowAt j inside (by omega)]
    by_cases dashed : small[j] = dash <;> simp [dashed]
  have admitted : ∀ a ∈ row, admissible a := by
    intro a listed
    obtain ⟨j, inside, rfl⟩ := List.getElem_of_mem listed
    have inSmall : j < small.length := by omega
    have value := rowAt j inSmall (by omega)
    rw [List.getElem?_eq_getElem inside, Option.some.injEq] at value
    rw [value]
    split
    · exact otherAdmissible _
    · next solid => exact (values _ (List.getElem_mem inSmall)).resolve_left solid
  have wide := (covers_iff.mp (contains row admitted covered)).2 i
  by_cases inside : i < small.length
  · have inBig : i < big.length := by omega
    rw [rowAt i inside inBig] at wide
    rw [List.getElem?_eq_getElem inside, List.getElem?_eq_getElem inBig] at *
    rcases wide _ rfl with dashed | equal
    · exact .inl (by rw [dashed])
    · by_cases dashed : small[i] = dash
      · rw [if_pos dashed, Option.some.injEq] at equal
        exact absurd equal (otherNe _)
      · rw [if_neg dashed] at equal
        exact .inr equal.symm
  · right
    rw [List.getElem?_eq_none (by omega), List.getElem?_eq_none (by omega)]

/-- A prime cube is not contained in another cube that avoids the off-set. -/
theorem eq_of_contains {admissible : A → Prop} {off : List A → Prop} {big small : List A}
    (choice : ∀ a, ∃ b, admissible b ∧ b ≠ a) (sameLength : big.length = small.length)
    (values : ∀ c ∈ small, c = dash ∨ admissible c) (prime : Prime dash off small)
    (avoids : ∀ row, off row → ¬ Covers dash big row)
    (contains : Contains dash admissible big small) : big = small := by
  have agree := contains_getElem? choice sameLength values contains
  by_contra different
  obtain ⟨i, differs⟩ : ∃ i, big[i]? ≠ small[i]? := by
    by_contra none
    push Not at none
    exact different (List.ext_getElem? none)
  have freed : big[i]? = some dash := (agree i).resolve_right differs
  obtain ⟨inside, -⟩ := List.getElem?_eq_some_iff.mp freed
  have inSmall : i < small.length := by omega
  have solid : small[i] ≠ dash := by
    intro dashed
    rw [freed, List.getElem?_eq_getElem inSmall, dashed] at differs
    exact differs rfl
  obtain ⟨row, isOff, covers⟩ := prime i _ (List.getElem?_eq_getElem inSmall) solid
  rw [covers_iff, List.length_set] at covers
  refine avoids row isOff (covers_iff.mpr ⟨by omega, fun j c present => ?_⟩)
  rcases agree j with dashed | equal
  · left
    rw [dashed] at present
    exact (Option.some.inj present).symm
  · by_cases same : i = j
    · subst same
      exact absurd equal differs
    · refine covers.2 j c ?_
      rw [List.getElem?_set_ne same, ← equal, present]

/-- Prime cubes grown from rows that no earlier cube covers are pairwise incomparable. -/
theorem incomparable {admissible : A → Prop} {off : List A → Prop} {first second row : List A}
    (choice : ∀ a, ∃ b, admissible b ∧ b ≠ a) (sameLength : first.length = second.length)
    (values : ∀ c ∈ first, c = dash ∨ admissible c) (prime : Prime dash off first)
    (avoids : ∀ row, off row → ¬ Covers dash second row) (admitted : ∀ a ∈ row, admissible a)
    (covered : Covers dash second row) (fresh : ¬ Covers dash first row) :
    ¬ Contains dash admissible first second ∧ ¬ Contains dash admissible second first := by
  constructor
  · intro contains
    exact fresh (contains row admitted covered)
  · intro contains
    have same := eq_of_contains choice sameLength.symm values prime avoids contains
    exact fresh (same ▸ covered)

end LogicRegression.Cube
