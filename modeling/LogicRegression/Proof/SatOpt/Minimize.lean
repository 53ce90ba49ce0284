import LogicRegression.Library.Fold
import LogicRegression.Proof.SatOpt.Expansion
import LogicRegression.Proof.SatOpt.Reorder

namespace LogicRegression.SatOpt

open Binary LogicRegression.Cube

/-- A truth table has distinct bit keys of one length and the values `0` and `1`. -/
structure IsTable (n : ℕ) (patterns : Table) : Prop where
  distinct : (patterns.map Prod.fst).Nodup
  size : ∀ row ∈ patterns, row.1.length = n
  bits : ∀ row ∈ patterns, IsBits row.1
  values : ∀ row ∈ patterns, row.2 = ['0'] ∨ row.2 = ['1']

/-- The rows with value `0`. -/
def OffSet (patterns : Table) (row : Text) : Prop := (row, ['0']) ∈ patterns

/-- The rows with value `1`. -/
def OnSet (patterns : Table) (row : Text) : Prop := (row, ['1']) ∈ patterns

/-- A lookup in a map with distinct keys finds exactly its entries. -/
theorem lookup_eq_some_iff_mem {patterns : Table} (distinct : (patterns.map Prod.fst).Nodup)
    {key value : Text} : patterns.lookup key = some value ↔ (key, value) ∈ patterns := by
  induction patterns with
  | nil => simp
  | cons entry patterns ih =>
      rw [List.map_cons, List.nodup_cons] at distinct
      rw [List.lookup_cons, List.mem_cons]
      by_cases same : key = entry.1
      · subst same
        have absent : (entry.1, value) ∉ patterns := fun listed =>
          distinct.1 (List.mem_map.mpr ⟨_, listed, rfl⟩)
        simp [absent, Prod.ext_iff, eq_comm]
      · have different : (key == entry.1) = false := by simpa using same
        simp [different, ih distinct.2, Prod.ext_iff, same]

theorem isOff_iff {n : ℕ} {patterns : Table} (table : IsTable n patterns) {key : Text} :
    isOff patterns key = true ↔ OffSet patterns key := by
  rw [isOff, decide_eq_true_iff, lookup_eq_some_iff_mem table.distinct, OffSet]

/-- No row has both values. -/
theorem IsTable.not_off {n : ℕ} {patterns : Table} (table : IsTable n patterns) {key : Text}
    (on : OnSet patterns key) : ¬ OffSet patterns key := by
  intro off
  have first := (lookup_eq_some_iff_mem table.distinct).mpr on
  have second := (lookup_eq_some_iff_mem table.distinct).mpr off
  rw [first] at second
  exact absurd second (by decide)

/-- The speed-up test is the cover test on the inputs. -/
theorem alreadyCovered_iff {cube first : Text} (size : cube.length = first.length) :
    alreadyCovered (cube ++ ['1']) first = true ↔ Covers '-' cube first := by
  have test (j : ℕ) (inside : j < cube.length) :
      (!((cube ++ ['1']).getD j '\x00' != '-' &&
        (cube ++ ['1']).getD j '\x00' != first.getD j '\x00')) = true ↔
      (cube[j] = '-' ∨ first[j]? = some cube[j]) := by
    have inFirst : j < first.length := size ▸ inside
    simp only [List.getD_eq_getElem?_getD, List.getElem?_append_left inside,
      List.getElem?_eq_getElem inside, List.getElem?_eq_getElem inFirst, Option.getD_some]
    by_cases dashed : cube[j] = '-'
    · simp [dashed]
    · simpa [dashed] using eq_comm
  rw [covers_iff, alreadyCovered, List.all_eq_true]
  constructor
  · intro all
    refine ⟨size, fun j c present => ?_⟩
    obtain ⟨inside, rfl⟩ := List.getElem?_eq_some_iff.mp present
    exact (test j inside).mp (all j (by simp [inside]))
  · rintro ⟨-, agree⟩ j listed
    have inside : j < cube.length := by simpa using listed
    exact (test j inside).mpr (agree j _ (List.getElem?_eq_getElem inside))

/-- This cube is grown from an on-set row as the minimiser intends. -/
structure IsGrown (n : ℕ) (patterns : Table) (seed cube : Text) : Prop where
  onset : OnSet patterns seed
  size : cube.length = n
  values : ∀ c ∈ cube, c = '-' ∨ c = '0' ∨ c = '1'
  covers : Covers '-' cube seed
  avoids : ∀ row, OffSet patterns row → ¬ Covers '-' cube row
  prime : Prime '-' (OffSet patterns) cube

/-- A string of bits stays one in the order of the places. -/
theorem permuted_isBits {n : ℕ} {inputOrder : InputOrder} {pat : Text} (order : IsOrder n inputOrder)
    (size : pat.length = n) (bits : IsBits pat) : IsBits (permuted inputOrder pat) := by
  intro c inside
  obtain ⟨entry, listed, rfl⟩ := List.mem_map.mp inside
  have inPat : entry.1 < pat.length := size ▸ order.lt listed
  apply bits
  simp [inPat]

section Grow

variable {skip : Char → ℕ → Bool} {n : ℕ} {patterns : Table} {inputOrder : InputOrder}
  {seed : Text} (sort : StdSort)

/-- The predicate of the expansion looks up the query in the order of the inputs. -/
def permutedOff (patterns : Table) (inputOrder : InputOrder) (queryPat : Text) : Bool :=
  isOff patterns (orderBack inputOrder queryPat)

theorem growPattern_eq (positive : n ≠ 0) :
    growPattern skip sort n patterns inputOrder seed =
      (orderBack (reorder sort inputOrder seed).2
          (expand skip (permutedOff patterns (reorder sort inputOrder seed).2)
            (reorder sort inputOrder seed).1) ++ ['1'],
        (reorder sort inputOrder seed).2) := by
  simp only [growPattern, if_pos positive]
  rfl

variable (positive : n ≠ 0) (short : n ≤ 29) (table : IsTable n patterns)
  (order : IsOrder n inputOrder) (on : OnSet patterns seed)
include short table order on

/-- An on-set row in the order of the places is a key that is not in the permuted off-set. -/
theorem permuted_isKey : IsKey (permuted inputOrder seed) ∧
    permutedOff patterns inputOrder (permuted inputOrder seed) = false := by
  have size := table.size _ on
  refine ⟨⟨permuted_isBits order size (table.bits _ on), ?_⟩, ?_⟩
  · rw [permuted_length, order.length_eq]
    exact short
  · rw [permutedOff, orderBack_permuted order size]
    by_contra off
    exact table.not_off on ((isOff_iff table).mp (Bool.eq_true_of_not_eq_false off))

/-- The reordered row is a key that is not in the permuted off-set. -/
theorem reorder_isKey :
    IsKey (reorder sort inputOrder seed).1 ∧
      permutedOff patterns (reorder sort inputOrder seed).2 (reorder sort inputOrder seed).1 =
        false := by
  have size := table.size _ on
  rw [reorder_fst sort (order.length_eq.trans size.symm)]
  exact permuted_isKey short table (reorder_order sort order size) on

include positive

/-- One expansion yields a cube that is good in the order of the inputs. -/
theorem growPattern_isGrown (sound : SoundSkip skip) :
    ∃ cube, (growPattern skip sort n patterns inputOrder seed).1 = cube ++ ['1'] ∧
      IsGrown n patterns seed cube := by
  have seedSize := table.size _ on
  have newOrder := reorder_order sort order seedSize
  have string := reorder_fst sort (order.length_eq.trans seedSize.symm)
  obtain ⟨key, onset⟩ := reorder_isKey sort short table order on
  rw [growPattern_eq sort positive]
  generalize reorder sort inputOrder seed = reordered at *
  obtain ⟨pat, after⟩ := reordered
  dsimp only at *
  have patSize : pat.length = n := by rw [string, permuted_length, newOrder.length_eq]
  have cubeSize := (expand_length sound key onset).trans patSize
  have covers := expand_covers sound key onset
  have prime := expand_prime sound key onset
  refine ⟨_, rfl, on, by rw [orderBack_length, cubeSize], ?_, ?_, ?_, ?_⟩
  · intro c inside
    obtain ⟨position, present⟩ := List.mem_iff_getElem?.mp inside
    have within : position < n := by
      have := (List.getElem?_eq_some_iff.mp present).1
      rwa [orderBack_length, cubeSize] at this
    obtain ⟨i, entry, found, rfl⟩ := newOrder.exists_entry within
    rw [orderBack_getElem? newOrder cubeSize found] at present
    rcases (covers_iff.mp covers).2 i c present with dashed | same
    · exact .inl dashed
    · exact .inr (key.bits c (List.mem_of_getElem? same))
  · rw [covers_orderBack_iff newOrder cubeSize seedSize, ← string]
    exact covers
  · intro row off
    rw [covers_orderBack_iff newOrder cubeSize (table.size _ off)]
    apply expand_avoids sound key onset
    · exact permuted_isBits newOrder (table.size _ off) (table.bits _ off)
    · rw [permutedOff, orderBack_permuted newOrder (table.size _ off)]
      exact (isOff_iff table).mpr off
  · intro position c present solid
    have within : position < n := by
      have := (List.getElem?_eq_some_iff.mp present).1
      rwa [orderBack_length, cubeSize] at this
    obtain ⟨i, entry, found, rfl⟩ := newOrder.exists_entry within
    rw [orderBack_getElem? newOrder cubeSize found] at present
    obtain ⟨row, ⟨-, off⟩, rowCovers⟩ := prime i c present solid
    have setSize : ((expand skip (permutedOff patterns after) pat).set i '-').length = n := by
      rw [List.length_set, cubeSize]
    have rowSize : row.length = n := rowCovers.length_eq ▸ setSize
    refine ⟨orderBack after row, (isOff_iff table).mp off, ?_⟩
    rw [← orderBack_set newOrder cubeSize found,
      covers_orderBack_iff newOrder setSize (by rw [orderBack_length, rowSize]),
      permuted_orderBack newOrder rowSize]
    exact rowCovers

omit short in
/-- The new order is a rearrangement of the old one. -/
theorem growPattern_perm (skip : Char → ℕ → Bool) :
    (growPattern skip sort n patterns inputOrder seed).2.Perm inputOrder := by
  rw [growPattern_eq sort positive]
  exact reorder_perm sort (by rw [order.length_eq, table.size _ on])

/-- Sound skip rules grow the same cube. -/
theorem growPattern_congr {other : Char → ℕ → Bool} (sound : SoundSkip skip)
    (otherSound : SoundSkip other) :
    growPattern skip sort n patterns inputOrder seed =
      growPattern other sort n patterns inputOrder seed := by
  obtain ⟨key, onset⟩ := reorder_isKey sort short table order on
  rw [growPattern_eq sort positive, growPattern_eq sort positive,
    expand_eq_masked sound key onset, expand_eq_masked otherSound key onset]

end Grow

section Run

variable {skip : Char → ℕ → Bool} {n : ℕ} {patterns : Table} {inputOrder : InputOrder}
  (sorts : ℕ → StdSort)

/-- The traversal has grown these rows into these cubes, in this order. -/
structure Traversed (skip : Char → ℕ → Bool) (sorts : ℕ → StdSort) (n : ℕ) (patterns : Table)
    (inputOrder : InputOrder) (done : Table) (progress : Progress)
    (grown : List (Text × Text)) : Prop where
  order : progress.inputOrder.Perm inputOrder
  results : progress.resultPatterns = grown.map fun pair => pair.2 ++ ['1']
  seeds : (grown.map Prod.fst).Sublist ((done.filter fun row => row.2 = ['1']).map Prod.fst)
  good : ∀ pair ∈ grown, IsGrown n patterns pair.1 pair.2
  source : ∀ i pair, grown[i]? = some pair → ∃ before, before.Perm inputOrder ∧
    (growPattern skip (sorts i) n patterns before pair.1).1 = pair.2 ++ ['1']
  fresh : grown.Pairwise fun earlier later => ¬ Covers '-' earlier.2 later.1
  complete : ∀ row, (row, ['1']) ∈ done → ∃ pair ∈ grown, Covers '-' pair.2 row

/-- The cubes of the results have no space and no dot. -/
theorem Traversed.cube_solid {sorts : ℕ → StdSort} {done : Table} {progress : Progress}
    {grown : List (Text × Text)}
    (traversed : Traversed skip sorts n patterns inputOrder done progress grown) {cube : Text}
    (listed : cube ∈ grown.map Prod.snd) :
    cube.length = n ∧ ∀ c ∈ cube, Text.isSpace c = false ∧ c ≠ '.' := by
  obtain ⟨pair, inside, rfl⟩ := List.mem_map.mp listed
  have good := traversed.good pair inside
  refine ⟨good.size, fun c letter => ?_⟩
  rcases good.values c letter with rfl | rfl | rfl <;> decide

variable (positive : n ≠ 0) (short : n ≤ 29) (table : IsTable n patterns)
  (order : IsOrder n inputOrder)
include positive short table order

/-- One round keeps the description of the traversal. -/
theorem minimizeStep_traversed (sound : SoundSkip skip) {done : Table} {progress : Progress}
    {grown : List (Text × Text)} {pattern : Text × Text} (listed : pattern ∈ patterns)
    (before : Traversed skip sorts n patterns inputOrder done progress grown) :
    ∃ next, Traversed skip sorts n patterns inputOrder (done ++ [pattern])
      (minimizeStep skip sorts n patterns progress pattern) next := by
  obtain ⟨first, value⟩ := pattern
  have testIff : (progress.resultPatterns.any fun rPattern => alreadyCovered rPattern first) =
      true ↔ ∃ pair ∈ grown, Covers '-' pair.2 first := by
    rw [before.results, List.any_map, List.any_eq_true]
    refine exists_congr fun pair => and_congr_right fun inside => ?_
    have size : pair.2.length = first.length := by
      rw [(before.good pair inside).size, table.size _ listed]
    exact alreadyCovered_iff size
  by_cases one : value = ['1']
  · subst one
    have seedsLater (seed : Text) :
        (((done ++ [(seed, ['1'])]).filter fun row => row.2 = ['1']).map Prod.fst : List Text) =
          (done.filter fun row => row.2 = ['1']).map Prod.fst ++ [seed] := by simp
    by_cases skipped : ∃ pair ∈ grown, Covers '-' pair.2 first
    · have same : minimizeStep skip sorts n patterns progress (first, ['1']) = progress := by
        simp [minimizeStep, testIff.mpr skipped]
      use grown
      rw [same]
      refine ⟨before.order, before.results, ?_, before.good, before.source, before.fresh, ?_⟩
      · rw [seedsLater]
        exact before.seeds.trans (List.sublist_append_left _ _)
      · intro row inside
        rcases List.mem_append.mp inside with earlier | last
        · exact before.complete row earlier
        · obtain rfl : row = first := by simpa using last
          exact skipped
    · have on : OnSet patterns first := listed
      have current := order.perm before.order
      obtain ⟨cube, result, good⟩ := growPattern_isGrown
        (sorts progress.resultPatterns.length) positive short table current on sound
      have perm := growPattern_perm (sorts progress.resultPatterns.length) positive table current on skip
      have count : progress.resultPatterns.length = grown.length := by simp [before.results]
      have next : minimizeStep skip sorts n patterns progress (first, ['1']) =
          ⟨(growPattern skip (sorts progress.resultPatterns.length) n patterns
            progress.inputOrder first).2, progress.resultPatterns ++ [cube ++ ['1']]⟩ := by
        have untested : ¬ _ := fun test => skipped (testIff.mp test)
        simp only [minimizeStep, if_true, if_neg untested, result]
      use grown ++ [(first, cube)]
      rw [next]
      refine ⟨perm.trans before.order, by simp [before.results], ?_, ?_, ?_, ?_, ?_⟩
      · rw [seedsLater, List.map_append]
        exact before.seeds.append (List.Sublist.refl _)
      · intro pair inside
        rcases List.mem_append.mp inside with earlier | last
        · exact before.good pair earlier
        · obtain rfl : pair = (first, cube) := by simpa using last
          exact good
      · intro i pair present
        rcases Nat.lt_or_ge i grown.length with earlier | later
        · rw [List.getElem?_append_left earlier] at present
          exact before.source i pair present
        · rw [List.getElem?_append_right later, List.getElem?_singleton] at present
          split at present
          · obtain rfl := Option.some.inj present
            have last : i = progress.resultPatterns.length := by omega
            exact ⟨progress.inputOrder, before.order, by rw [last]; exact result⟩
          · exact absurd present (by simp)
      · rw [List.pairwise_append]
        refine ⟨before.fresh, List.pairwise_singleton _ _, fun pair inside last here => ?_⟩
        obtain rfl : last = (first, cube) := by simpa using here
        exact fun covers => skipped ⟨pair, inside, covers⟩
      · intro row inside
        rcases List.mem_append.mp inside with earlier | last
        · obtain ⟨pair, listedPair, covers⟩ := before.complete row earlier
          exact ⟨pair, List.mem_append_left _ listedPair, covers⟩
        · obtain rfl : row = first := by simpa using last
          exact ⟨(row, cube), by simp, good.covers⟩
  · have same : minimizeStep skip sorts n patterns progress (first, value) = progress := by
      simp [minimizeStep, one]
    use grown
    rw [same]
    refine ⟨before.order, before.results, ?_, before.good, before.source, before.fresh, ?_⟩
    · simpa [one] using before.seeds
    · intro row inside
      rcases List.mem_append.mp inside with earlier | last
      · exact before.complete row earlier
      · have same : (row, ['1']) = (first, value) := List.mem_singleton.mp last
        exact absurd (congrArg Prod.snd same).symm one

/-- The whole traversal is described by the rows that it has grown. -/
theorem minimize_traversed (sound : SoundSkip skip) :
    ∃ grown, Traversed skip sorts n patterns inputOrder patterns
      (minimize skip sorts n patterns inputOrder) grown := by
  let holds (done : Table) (progress : Progress) : Prop :=
    ∃ grown, Traversed skip sorts n patterns inputOrder done progress grown
  have start : holds [] ⟨inputOrder, []⟩ :=
    ⟨[], List.Perm.refl _, rfl, by simp, by simp, by simp, List.Pairwise.nil, by simp⟩
  apply Fold.foldl_prefix start
  intro done pattern progress before ⟨grown, traversed⟩
  have listed : pattern ∈ patterns := before.subset (by simp)
  exact minimizeStep_traversed sorts positive short table order sound listed traversed

end Run

end LogicRegression.SatOpt
