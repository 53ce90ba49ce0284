import LogicRegression.Construction.SatOpt
import LogicRegression.Library.Cube
import LogicRegression.Library.Greedy

namespace LogicRegression.SatOpt

open Binary LogicRegression.Cube

/-- The reference expansion looks up every assignment. -/
def noSkip (_ : Char) (_ : ℕ) : Bool := false

theorem isBits_solid {pat : Text} (isBits : IsBits pat) : '-' ∉ pat := fun inside => by
  rcases isBits '-' inside with equal | equal <;> exact absurd equal (by decide)

theorem dcPositions_length (j : ℕ) (dcString : Text) :
    (dcPositions j dcString).length = dcString.count '-' := by
  induction dcString generalizing j with
  | nil => rfl
  | cons c rest ih =>
      unfold dcPositions
      split <;> simp_all

theorem dcPositions_ge {j position : ℕ} {dcString : Text}
    (listed : position ∈ dcPositions j dcString) : j ≤ position := by
  induction dcString generalizing j with
  | nil => simp [dcPositions] at listed
  | cons c rest ih =>
      unfold dcPositions at listed
      split at listed
      · rcases List.mem_cons.mp listed with rfl | later
        · exact le_rfl
        · exact (Nat.le_succ j).trans (ih later)
      · exact (Nat.le_succ j).trans (ih listed)

/-- The loop over `k` fills the dashes in order with the bits that are left. -/
theorem queryPattern_from (k : ℕ) (rest : Text) (before : List ℕ) (spent values : Text)
    (sameCount : spent.length = before.length) (count : values.length = rest.count '-') :
    queryPattern (before ++ dcPositions k rest) (spent ++ values) k before.length rest =
      fill '-' rest values := by
  induction rest generalizing k before spent values with
  | nil => simp [queryPattern]
  | cons c rest ih =>
      by_cases dashed : c = '-'
      · subst dashed
        obtain ⟨v, values, rfl⟩ : ∃ v tail, values = v :: tail :=
          List.exists_cons_of_length_pos (by rw [count]; simp)
        have fetched : (before ++ k :: dcPositions (k + 1) rest)[before.length]? = some k := by simp
        have written : (spent ++ v :: values).getD before.length '\x00' = v := by
          simp [← sameCount]
        have next := ih (k + 1) (before ++ [k]) (spent ++ [v]) values (by simp [sameCount])
          (by simpa using count)
        simp only [dcPositions, queryPattern, if_true]
        rw [if_pos ⟨fetched, by simp [← sameCount]⟩, written, fill_dash]
        simpa using next
      · have skipped : (before ++ dcPositions (k + 1) rest)[before.length]? ≠ some k := by
          intro fetched
          rw [List.getElem?_append_right le_rfl, Nat.sub_self] at fetched
          exact absurd (dcPositions_ge (List.mem_of_getElem? fetched)) (by omega)
        have next := ih (k + 1) before spent values sameCount (by simpa [dashed] using count)
        simp only [dcPositions, queryPattern, if_neg dashed]
        rw [if_neg fun both => skipped both.1, fill_cons dashed, next]

/-- A number below `2 ^ 29` survives the conversion to `int`. -/
theorem toInt_of_fits {j count : ℕ} (short : count ≤ 29) (fits : j < 2 ^ count) :
    toInt j = j := by
  have bound : 2 ^ count ≤ 2 ^ 29 := Nat.pow_le_pow_right (by decide) short
  exact toInt_of_lt (fits.trans_le (bound.trans (by decide)))

/-- One lookup asks for the dashes filled with one binary number. -/
theorem queryPattern_eq_fill {dcString : Text} {j : ℕ} (short : dcString.count '-' ≤ 29)
    (fits : j < 2 ^ dcString.count '-') :
    queryPattern (dcPositions 0 dcString)
      ((int2Binary (toInt j)).leftpad (dcPositions 0 dcString).length '0') 0 0 dcString =
      fill '-' dcString (bits (dcString.count '-') j) := by
  rw [dcPositions_length, toInt_of_fits short fits]
  change queryPattern _ (padded _ j) 0 0 dcString = _
  rw [padded_eq_bits fits]
  exact queryPattern_from 0 dcString [] [] _ rfl (bits_length _ _)

/-- The scan fails when an assignment that is not skipped meets the off-set. -/
theorem scanFails_iff (skip : ℕ → Bool) (isOff : Text → Bool) {dcString : Text}
    (short : dcString.count '-' ≤ 29) :
    scanFails skip isOff dcString = true ↔
      ∃ j < 2 ^ dcString.count '-', skip j = false ∧
        isOff (fill '-' dcString (bits (dcString.count '-') j)) = true := by
  simp only [scanFails, List.any_eq_true, List.mem_range, Bool.and_eq_true, Bool.not_eq_true',
    dcPositions_length]
  refine exists_congr fun j => and_congr_right fun fits => and_congr_right fun _ => ?_
  have query := queryPattern_eq_fill short fits
  rw [dcPositions_length] at query
  rw [query]

/-- The keys of the map are bit strings that fit the `int` conversion. -/
structure IsKey (pat : Text) : Prop where
  bits : IsBits pat
  short : pat.length ≤ 29

theorem IsKey.solid {pat : Text} (key : IsKey pat) : '-' ∉ pat := isBits_solid key.bits

theorem IsKey.short_masked {pat : Text} (key : IsKey pat) (freed : Finset ℕ) :
    (masked '-' pat freed).count '-' ≤ 29 :=
  List.count_le_length.trans ((masked_length pat freed).le.trans key.short)

/-- The freed positions are bad when the full scan meets the off-set. -/
def Hits (isOff : Text → Bool) (pat : Text) (freed : Finset ℕ) : Prop :=
  scanFails (noSkip '-') isOff (masked '-' pat freed) = true

instance (isOff : Text → Bool) (pat : Text) : DecidablePred (Hits isOff pat) :=
  fun _ => inferInstanceAs (Decidable (_ = true))

theorem fill_isBits {pat values : Text} {freed : Finset ℕ} (key : IsKey pat)
    (bitValues : IsBits values) (count : values.length = (masked '-' pat freed).count '-') :
    IsBits (fill '-' (masked '-' pat freed) values) := by
  intro c inside
  rcases mem_fill count inside with value | ⟨listed, solid⟩
  · exact bitValues c value
  · exact key.bits c ((mem_masked listed).resolve_left solid)

/-- The full scan asks for each covered bit row. -/
theorem hits_iff {isOff : Text → Bool} {pat : Text} {freed : Finset ℕ} (key : IsKey pat) :
    Hits isOff pat freed ↔
      ∃ row, IsBits row ∧ Covers '-' (masked '-' pat freed) row ∧ isOff row = true := by
  rw [Hits, scanFails_iff _ _ (key.short_masked freed)]
  constructor
  · rintro ⟨j, -, -, off⟩
    exact ⟨_, fill_isBits key (bits_isBits _ _) (bits_length _ _),
      covers_fill (bits_length _ _), off⟩
  · intro ⟨row, bitRow, covers, off⟩
    obtain ⟨values, count, listed, rfl⟩ := exists_fill covers
    obtain ⟨j, fits, same⟩ := exists_bits fun v inside => bitRow v (listed v inside)
    rw [count] at fits same
    exact ⟨j, fits, rfl, by rwa [same]⟩

theorem hits_mono {isOff : Text → Bool} {pat : Text} (key : IsKey pat)
    (small large : Finset ℕ) (subset : small ⊆ large) (hits : Hits isOff pat small) :
    Hits isOff pat large := by
  rw [hits_iff key] at hits ⊢
  obtain ⟨row, bitRow, covers, off⟩ := hits
  exact ⟨row, bitRow, covers_masked_mono (key.solid) subset covers, off⟩

/-- The row alone is good when it is not in the off-set. -/
theorem not_hits_empty {isOff : Text → Bool} {pat : Text} (key : IsKey pat)
    (onset : isOff pat = false) : ¬ Hits isOff pat ∅ := by
  rw [hits_iff key]
  rintro ⟨row, -, covers, off⟩
  rw [covers_masked_iff (key.solid)] at covers
  have same : row = pat := List.ext_getElem? fun i => covers.2 i (by simp)
  rw [same, onset] at off
  exact absurd off (by simp)

/-- The positions after the last freed one have no dash. -/
theorem masked_split {pat : Text} {freed : Finset ℕ} {i : ℕ} (solid : '-' ∉ pat)
    (inside : i < pat.length) (below : ∀ position ∈ freed, position < i) :
    ∃ front back : Text, masked '-' pat (insert i freed) = front ++ '-' :: back ∧
      front.length = i ∧ '-' ∉ back := by
  refine ⟨(masked '-' pat freed).take i, (masked '-' pat freed).drop (i + 1), ?_, ?_, ?_⟩
  · rw [← masked_set_dash, List.set_eq_take_append_cons_drop, if_pos (by simpa using inside)]
  · simp [inside.le]
  · intro dashed
    obtain ⟨j, present⟩ := List.mem_iff_getElem?.mp dashed
    rw [List.getElem?_drop, masked_getElem?, Option.map_eq_some_iff] at present
    obtain ⟨a, inRow, same⟩ := present
    rw [if_neg fun listed => absurd (below _ listed) (by omega)] at same
    exact solid (same ▸ List.mem_of_getElem? inRow)

/-- The bit that the half-space scan keeps is the last one of the binary number. -/
theorem halfSpace_eq_false {recordBit : Char} {j : ℕ}
    (different : bitChar (j.testBit 0) ≠ recordBit) : halfSpace recordBit j = false := by
  rcases Nat.mod_two_eq_zero_or_one j with parity | parity
  · have notZero : recordBit ≠ '0' := fun same => different (by simp [same, bitChar, parity])
    simp [halfSpace, parity, notZero]
  · have notOne : recordBit ≠ '1' := fun same => different (by simp [same, bitChar, parity])
    simp [halfSpace, parity, notOne]

/-- The half-space scan decides the same question once the smaller cube is known to be good. -/
theorem scanFails_halfSpace_iff {isOff : Text → Bool} {pat : Text} {freed : Finset ℕ} {i : ℕ}
    (key : IsKey pat) (inside : i < pat.length) (below : ∀ position ∈ freed, position < i)
    (good : ¬ Hits isOff pat freed) :
    scanFails (halfSpace (pat.getD i '\x00')) isOff (masked '-' pat (insert i freed)) = true ↔
      Hits isOff pat (insert i freed) := by
  have solid := key.solid
  constructor
  · intro fails
    obtain ⟨j, fits, -, off⟩ := (scanFails_iff _ _ (key.short_masked _)).mp fails
    exact (scanFails_iff _ _ (key.short_masked _)).mpr ⟨j, fits, rfl, off⟩
  · intro hits
    obtain ⟨row, bitRow, covers, off⟩ := (hits_iff key).mp hits
    obtain ⟨values, count, listed, filled⟩ := exists_fill covers
    obtain ⟨front, back, split, frontLength, noDash⟩ := masked_split solid inside below
    have dashes : (front ++ '-' :: back).count '-' = front.count '-' + 1 := by
      simp [List.count_eq_zero_of_not_mem noDash]
    rw [split] at count filled
    obtain ⟨j, fits, same⟩ := exists_bits fun v present => bitRow v (listed v present)
    rw [count, dashes] at fits same
    rw [bits_succ] at same
    have rowAt : row[i]? = some (bitChar (j.testBit 0)) := by
      have frontCovers : Covers '-' front (fill '-' front (bits (front.count '-') (j / 2))) :=
        covers_fill (bits_length _ _)
      have frontFilled := frontCovers.length_eq
      rw [← filled, ← same, fill_last noDash _ (bits_length _ _),
        List.getElem?_append_right (by omega)]
      simp [← frontFilled, frontLength]
    -- A row that keeps the old bit would already lie in the smaller cube.
    have flipped : bitChar (j.testBit 0) ≠ pat.getD i '\x00' := by
      intro kept
      refine good ((hits_iff key).mpr ⟨row, bitRow, ?_, off⟩)
      rw [covers_masked_iff solid] at covers ⊢
      refine ⟨covers.1, fun position outside => ?_⟩
      by_cases last : position = i
      · subst last
        rw [rowAt, kept]
        simp [inside]
      · exact covers.2 position (by simp [outside, last])
    refine (scanFails_iff _ _ (key.short_masked _)).mpr ⟨j, ?_, halfSpace_eq_false flipped, ?_⟩
    · rwa [split, dashes]
    · rw [split, dashes, bits_succ, same, filled]
      exact off

/-- The full scan is the bad test by definition. -/
theorem scanFails_noSkip (isOff : Text → Bool) (recordBit : Char) (pat : Text)
    (freed : Finset ℕ) :
    scanFails (noSkip recordBit) isOff (masked '-' pat freed) = true ↔ Hits isOff pat freed :=
  Iff.rfl

/-- A skip rule is sound when it never changes the verdict on a cube that can occur. -/
def SoundSkip (skip : Char → ℕ → Bool) : Prop :=
  ∀ (isOff : Text → Bool) (pat : Text) (freed : Finset ℕ) (i : ℕ), IsKey pat → i < pat.length →
    (∀ position ∈ freed, position < i) → ¬ Hits isOff pat freed →
    (scanFails (skip (pat.getD i '\x00')) isOff (masked '-' pat (insert i freed)) = true ↔
      Hits isOff pat (insert i freed))

theorem soundSkip_halfSpace : SoundSkip halfSpace :=
  fun _ _ _ _ key inside below good => scanFails_halfSpace_iff key inside below good

theorem soundSkip_noSkip : SoundSkip noSkip :=
  fun isOff pat _ i _ _ _ _ => scanFails_noSkip isOff (pat.getD i '\x00') pat _

/-- One round of the expansion is one attempt of the greedy pass. -/
theorem expandStep_masked {skip : Char → ℕ → Bool} (sound : SoundSkip skip)
    {isOff : Text → Bool} {pat : Text} {freed : Finset ℕ} {i : ℕ} (key : IsKey pat)
    (inside : i < pat.length) (below : ∀ position ∈ freed, position < i)
    (good : ¬ Hits isOff pat freed) :
    expandStep skip isOff pat (masked '-' pat freed) i =
      masked '-' pat (Greedy.attempt (Hits isOff pat) freed i) := by
  have kept : i ∉ freed := fun listed => absurd (below i listed) (lt_irrefl i)
  have present : pat[i]? = some (pat.getD i '\x00') := by simp [inside]
  have recorded : (masked '-' pat freed).getD i '\x00' = pat.getD i '\x00' := by
    simp only [List.getD_eq_getElem?_getD, masked_getElem?, if_neg kept, Option.map_id']
  have verdict := sound isOff pat freed i key inside below good
  simp only [expandStep, recorded, masked_set_dash, Greedy.attempt, verdict]
  split
  · exact masked_set_back kept present
  · rfl

/-- The rounds for the first positions free exactly those that the greedy pass takes. -/
theorem foldl_expandStep {skip : Char → ℕ → Bool} (sound : SoundSkip skip)
    {isOff : Text → Bool} {pat : Text} (key : IsKey pat) (onset : isOff pat = false) {count : ℕ}
    (within : count ≤ pat.length) :
    (List.range count).foldl (expandStep skip isOff pat) pat =
        masked '-' pat (Greedy.grow (Hits isOff pat) ∅ (List.range count)) ∧
      ∀ position ∈ Greedy.grow (Hits isOff pat) ∅ (List.range count), position < count := by
  induction count with
  | zero => simp
  | succ count ih =>
      obtain ⟨same, below⟩ := ih (by omega)
      have good := Greedy.grow_good (Hits isOff pat) (not_hits_empty key onset) (List.range count)
      have last : Greedy.grow (Hits isOff pat) ∅ (List.range (count + 1)) =
          Greedy.attempt (Hits isOff pat)
            (Greedy.grow (Hits isOff pat) ∅ (List.range count)) count := by
        simp [Greedy.grow, List.range_succ]
      rw [List.range_succ, List.foldl_append, same, ← List.range_succ, last]
      refine ⟨expandStep_masked sound key (by omega) below good, fun position listed => ?_⟩
      have taken := Greedy.attempt_subset _ _ _ listed
      rcases Finset.mem_insert.mp taken with rfl | earlier
      · omega
      · exact (below position earlier).trans (Nat.lt_succ_self count)

/-- The expansion frees exactly the positions that the greedy pass takes. -/
theorem expand_eq_masked {skip : Char → ℕ → Bool} (sound : SoundSkip skip)
    {isOff : Text → Bool} {pat : Text} (key : IsKey pat) (onset : isOff pat = false) :
    expand skip isOff pat =
      masked '-' pat (Greedy.grow (Hits isOff pat) ∅ (List.range pat.length)) :=
  (foldl_expandStep sound key onset le_rfl).1

section Expanded

variable {skip : Char → ℕ → Bool} {isOff : Text → Bool} {pat : Text}

/-- The expansion keeps the row that it starts from. -/
theorem expand_covers (sound : SoundSkip skip) (key : IsKey pat)
    (onset : isOff pat = false) : Covers '-' (expand skip isOff pat) pat := by
  rw [expand_eq_masked sound key onset, covers_masked_iff (key.solid)]
  exact ⟨rfl, fun _ _ => rfl⟩

/-- The expansion covers no bit row of the off-set. -/
theorem expand_avoids (sound : SoundSkip skip) (key : IsKey pat)
    (onset : isOff pat = false) {row : Text} (bitRow : IsBits row) (off : isOff row = true) :
    ¬ Covers '-' (expand skip isOff pat) row := by
  rw [expand_eq_masked sound key onset]
  intro covers
  exact Greedy.grow_good (Hits isOff pat) (not_hits_empty key onset) _
    ((hits_iff key).mpr ⟨row, bitRow, covers, off⟩)

/-- The expansion is prime: a refused position stays refused for the larger final cube. -/
theorem expand_prime (sound : SoundSkip skip) (key : IsKey pat)
    (onset : isOff pat = false) :
    Prime '-' (fun row => IsBits row ∧ isOff row = true) (expand skip isOff pat) := by
  rw [expand_eq_masked sound key onset]
  intro i c present solid
  rw [masked_getElem?, Option.map_eq_some_iff] at present
  obtain ⟨a, inRow, same⟩ := present
  have inside : i < pat.length := (List.getElem?_eq_some_iff.mp inRow).1
  have refused : i ∉ Greedy.grow (Hits isOff pat) ∅ (List.range pat.length) := by
    intro freed
    rw [if_pos freed] at same
    exact solid same.symm
  have conflict := Greedy.grow_maximal (Hits isOff pat) (hits_mono key)
    (List.mem_range.mpr inside) refused
  obtain ⟨row, bitRow, covers, off⟩ := (hits_iff key).mp conflict
  exact ⟨row, ⟨bitRow, off⟩, by rwa [masked_set_dash]⟩

theorem expand_length (sound : SoundSkip skip) (key : IsKey pat)
    (onset : isOff pat = false) : (expand skip isOff pat).length = pat.length :=
  (expand_covers sound key onset).length_eq

end Expanded

end LogicRegression.SatOpt
