import Mathlib.Tactic
import Mathlib.Data.Nat.Choose.Basic
import Mathlib.Data.List.Chain

namespace LogicRegression.FixedWeight

/-- The bit vectors of a length with a number of ones, in lexicographic order. -/
def lex : ℕ → ℕ → List (List Bool)
  | 0, 0 => [[]]
  | 0, _ + 1 => []
  | n + 1, 0 => (lex n 0).map (false :: ·)
  | n + 1, k + 1 => (lex n (k + 1)).map (false :: ·) ++ (lex n k).map (true :: ·)

theorem lex_length (n k : ℕ) : (lex n k).length = n.choose k := by
  induction n generalizing k with
  | zero => cases k <;> rfl
  | succ n ih =>
      cases k with
      | zero => simp [lex, ih]
      | succ k =>
          rw [lex, List.length_append, List.length_map, List.length_map, ih, ih,
            Nat.choose_succ_succ, Nat.add_comm]

theorem mem_lex {n k : ℕ} {v : List Bool} : v ∈ lex n k ↔ v.length = n ∧ v.count true = k := by
  induction n generalizing k v with
  | zero =>
      cases k with
      | zero =>
          simp only [lex, List.mem_singleton, List.length_eq_zero_iff]
          exact ⟨fun same => ⟨same, by rw [same]; rfl⟩, fun both => both.1⟩
      | succ k =>
          simp only [lex, List.not_mem_nil, List.length_eq_zero_iff, false_iff, not_and]
          rintro rfl
          simp
  | succ n ih =>
      cases v with
      | nil => cases k <;> simp [lex]
      | cons b v =>
          cases k with
          | zero => cases b <;> simp [lex, ih]
          | succ k => cases b <;> simp [lex, ih]

theorem lex_nodup (n k : ℕ) : (lex n k).Nodup := by
  induction n generalizing k with
  | zero => cases k <;> simp [lex]
  | succ n ih =>
      have cons (b : Bool) : Function.Injective (b :: · : List Bool → List Bool) :=
        List.cons_injective
      cases k with
      | zero => exact (ih 0).map (cons false)
      | succ k =>
          apply ((ih (k + 1)).map (cons false)).append ((ih k).map (cons true))
          intro v first second
          obtain ⟨u, -, rfl⟩ := List.mem_map.mp first
          obtain ⟨w, -, same⟩ := List.mem_map.mp second
          exact absurd (List.cons.inj same).1 (by decide)

theorem lex_eq_nil {n k : ℕ} (above : n < k) : lex n k = [] :=
  List.length_eq_zero_iff.mp (by rw [lex_length, Nat.choose_eq_zero_of_lt above])

/-- The first vector has its ones at the end. -/
theorem lex_head? {n k : ℕ} (fits : k ≤ n) :
    (lex n k).head? = some (List.replicate (n - k) false ++ List.replicate k true) := by
  induction n generalizing k with
  | zero =>
      obtain rfl : k = 0 := by omega
      rfl
  | succ n ih =>
      cases k with
      | zero => simp [lex, ih, List.replicate_succ]
      | succ k =>
          rcases Nat.lt_or_ge n (k + 1) with above | inside
          · obtain rfl : k = n := by omega
            simp [lex, lex_eq_nil, ih, List.replicate_succ]
          · have step : n + 1 - (k + 1) = n - (k + 1) + 1 := by omega
            rw [lex, List.head?_append, List.head?_map, ih inside, step, List.replicate_succ]
            rfl

/-- The last vector has its ones at the start. -/
theorem lex_getLast? {n k : ℕ} (fits : k ≤ n) :
    (lex n k).getLast? = some (List.replicate k true ++ List.replicate (n - k) false) := by
  induction n generalizing k with
  | zero =>
      obtain rfl : k = 0 := by omega
      rfl
  | succ n ih =>
      cases k with
      | zero => simp [lex, ih, List.replicate_succ]
      | succ k =>
          have inside : k ≤ n := by omega
          rw [lex, List.getLast?_append, List.getLast?_map, ih inside, List.replicate_succ,
            Nat.add_sub_add_right]
          rfl

/-- A successor function that treats the parts and the boundary right walks along the list. -/
theorem lex_isChain {next : List Bool → Option (List Bool)}
    (keeps : ∀ b u v, next u = some v → next (b :: u) = some (b :: v))
    (turn : ∀ k m : ℕ, next (false :: (List.replicate (k + 1) true ++ List.replicate m false)) =
      some (true :: (List.replicate (m + 1) false ++ List.replicate k true))) (n k : ℕ) :
    (lex n k).IsChain fun u v => next u = some v := by
  induction n generalizing k with
  | zero => cases k <;> simp [lex]
  | succ n ih =>
      have part (b : Bool) (k : ℕ) :
          ((lex n k).map (b :: ·)).IsChain fun u v => next u = some v := by
        rw [List.isChain_map]
        exact (ih k).imp fun u v => keeps b u v
      cases k with
      | zero => exact part false 0
      | succ k =>
          rw [lex, List.isChain_append]
          refine ⟨part false (k + 1), part true k, fun u last v first => ?_⟩
          rcases Nat.lt_or_ge n (k + 1) with above | inside
          · simp [lex_eq_nil above] at last
          · have step : n - k = n - (k + 1) + 1 := by omega
            rw [List.getLast?_map, lex_getLast? inside] at last
            rw [List.head?_map, lex_head? (by omega), step] at first
            obtain rfl := Option.some.inj last
            obtain rfl := Option.some.inj first
            exact turn k (n - (k + 1))

/-- The order of the list is that of the vectors themselves. -/
theorem lex_sorted (n k : ℕ) : (lex n k).Pairwise (· < ·) := by
  induction n generalizing k with
  | zero => cases k <;> simp [lex]
  | succ n ih =>
      have part (b : Bool) (k : ℕ) : ((lex n k).map (b :: ·)).Pairwise (· < ·) := by
        rw [List.pairwise_map]
        exact (ih k).imp fun below => List.cons_lt_cons_iff.mpr (.inr ⟨rfl, below⟩)
      cases k with
      | zero => exact part false 0
      | succ k =>
          rw [lex, List.pairwise_append]
          refine ⟨part false (k + 1), part true k, fun u first v second => ?_⟩
          obtain ⟨u, -, rfl⟩ := List.mem_map.mp first
          obtain ⟨v, -, rfl⟩ := List.mem_map.mp second
          exact List.cons_lt_cons_iff.mpr (.inl (by decide))

/-- In a sorted list nothing lies between an entry and the next one. -/
theorem not_between {A : Type} {r : A → A → Prop} (irrefl : ∀ a, ¬ r a a)
    (trans : ∀ a b c, r a b → r b c → r a c) {items before later : List A} {u v w : A}
    (sorted : items.Pairwise r) (split : items = before ++ u :: v :: later) (listed : w ∈ items) :
    ¬ (r u w ∧ r w v) := by
  subst split
  intro ⟨above, below⟩
  obtain ⟨-, tail, cross⟩ := List.pairwise_append.mp sorted
  obtain ⟨fromU, fromV⟩ := List.pairwise_cons.mp tail
  have afterV := (List.pairwise_cons.mp fromV).1
  simp only [List.mem_append, List.mem_cons] at listed
  rcases listed with first | rfl | rfl | last
  · exact irrefl _ (trans _ _ _ (cross w first u List.mem_cons_self) above)
  · exact irrefl _ above
  · exact irrefl _ below
  · exact irrefl _ (trans _ _ _ (afterV w last) below)

/-- The same vectors in colexicographic order. -/
def colex (n k : ℕ) : List (List Bool) := (lex n k).map List.reverse

theorem colex_length (n k : ℕ) : (colex n k).length = n.choose k := by
  rw [colex, List.length_map, lex_length]

theorem mem_colex {n k : ℕ} {v : List Bool} :
    v ∈ colex n k ↔ v.length = n ∧ v.count true = k := by
  rw [colex, List.mem_map_of_involutive List.reverse_involutive, mem_lex, List.length_reverse,
    List.count_reverse]

theorem colex_nodup (n k : ℕ) : (colex n k).Nodup :=
  (lex_nodup n k).map List.reverse_injective

theorem colex_head? {n k : ℕ} (fits : k ≤ n) :
    (colex n k).head? = some (List.replicate k true ++ List.replicate (n - k) false) := by
  rw [colex, List.head?_map, lex_head? fits]
  simp

theorem colex_getLast? {n k : ℕ} (fits : k ≤ n) :
    (colex n k).getLast? = some (List.replicate (n - k) false ++ List.replicate k true) := by
  rw [colex, List.getLast?_map, lex_getLast? fits]
  simp

/-- Vectors of one length are compared at the highest place where they differ. -/
def ColexLt (u v : List Bool) : Prop := u.reverse < v.reverse

theorem ColexLt.irrefl (u : List Bool) : ¬ ColexLt u u := lt_irrefl u.reverse

theorem ColexLt.trans {u v w : List Bool} (first : ColexLt u v) (second : ColexLt v w) :
    ColexLt u w := lt_trans first second

theorem colex_sorted (n k : ℕ) : (colex n k).Pairwise ColexLt := by
  rw [colex, List.pairwise_map]
  exact (lex_sorted n k).imp fun below => by simpa [ColexLt] using below

/-- The second vector comes next among the vectors of this length with this number of ones. -/
structure ColexNext (n k : ℕ) (u v : List Bool) : Prop where
  size : v.length = n
  ones : v.count true = k
  above : ColexLt u v
  next : ∀ w : List Bool, w.length = n → w.count true = k → ¬ (ColexLt u w ∧ ColexLt w v)

theorem colexNext_of_split {n k : ℕ} {before later : List (List Bool)} {u v : List Bool}
    (split : colex n k = before ++ u :: v :: later) : ColexNext n k u v := by
  have listed : v ∈ colex n k := by simp [split]
  have sorted := colex_sorted n k
  have tail : (u :: v :: later).Pairwise ColexLt := by
    rw [split] at sorted
    exact (List.pairwise_append.mp sorted).2.1
  refine ⟨(mem_colex.mp listed).1, (mem_colex.mp listed).2,
    (List.pairwise_cons.mp tail).1 v List.mem_cons_self, fun w size ones => ?_⟩
  exact not_between ColexLt.irrefl (fun _ _ _ => ColexLt.trans) sorted split
    (mem_colex.mpr ⟨size, ones⟩)

/-- Each entry of the list is followed by the next vector. -/
theorem colex_isChain_next (n k : ℕ) : (colex n k).IsChain (ColexNext n k) := by
  rw [List.isChain_iff_forall_rel_of_append_cons_cons]
  intro u v before later split
  exact colexNext_of_split split

/-- The reversed rules describe a successor function for the colexicographic order. -/
theorem colex_isChain {next : List Bool → Option (List Bool)}
    (keeps : ∀ b u v, next u = some v → next (u ++ [b]) = some (v ++ [b]))
    (turn : ∀ k m : ℕ, next (List.replicate m false ++ List.replicate (k + 1) true ++ [false]) =
      some (List.replicate k true ++ List.replicate (m + 1) false ++ [true])) (n k : ℕ) :
    (colex n k).IsChain fun u v => next u = some v := by
  rw [colex, List.isChain_map]
  let mirror : List Bool → Option (List Bool) := fun u => (next u.reverse).map List.reverse
  have mirrorKeeps (b : Bool) (u v : List Bool) (stepped : mirror u = some v) :
      mirror (b :: u) = some (b :: v) := by
    obtain ⟨w, found, rfl⟩ := Option.map_eq_some_iff.mp stepped
    change (next (b :: u).reverse).map List.reverse = _
    rw [List.reverse_cons, keeps b _ w found]
    simp
  have mirrorTurn (k m : ℕ) :
      mirror (false :: (List.replicate (k + 1) true ++ List.replicate m false)) =
        some (true :: (List.replicate (m + 1) false ++ List.replicate k true)) := by
    change (next (List.reverse _)).map List.reverse = _
    rw [List.reverse_cons, List.reverse_append, List.reverse_replicate, List.reverse_replicate,
      turn k m]
    simp
  apply (lex_isChain mirrorKeeps mirrorTurn n k).imp
  intro u v stepped
  obtain ⟨w, found, rfl⟩ := Option.map_eq_some_iff.mp stepped
  rw [found, List.reverse_reverse]

end LogicRegression.FixedWeight
