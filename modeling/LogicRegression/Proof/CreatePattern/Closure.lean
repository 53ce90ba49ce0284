import LogicRegression.Construction.CreatePattern

namespace LogicRegression.FixNetwork

open Text Binary

variable {inputNum : ℕ}

theorem toStr_injective : Function.Injective (toStr : (Fin inputNum → Bool) → Text) := by
  intro first second same
  have bits := (List.map_injective_iff.mpr bitChar_injective) (List.reverse_injective same)
  exact List.ofFn_injective bits

@[simp] theorem toStr_inj {first second : Fin inputNum → Bool} :
    toStr first = toStr second ↔ first = second := toStr_injective.eq_iff

@[simp] theorem flip_flip (x : Fin inputNum → Bool) : flip (flip x) = x := by
  funext j
  exact Bool.not_not (x j)

theorem flip_ne (positive : 1 ≤ inputNum) (x : Fin inputNum → Bool) : flip x ≠ x := by
  intro same
  have first := congrFun same ⟨0, positive⟩
  exact absurd first (by simp [flip])

/-- The map holds exactly the keys of the patterns, and no pattern occurs twice. -/
structure Indexed (s : Patterns inputNum) : Prop where
  distinct : s.iogenInputPatterns.Nodup
  keys : ∀ key, key ∈ s.ppp ↔ ∃ x ∈ s.iogenInputPatterns, toStr x = key

/-- An indexed list also contains the complement of each of its vectors. -/
structure Closed (s : Patterns inputNum) : Prop extends Indexed s where
  closed : ∀ x ∈ s.iogenInputPatterns, flip x ∈ s.iogenInputPatterns

theorem empty_closed : Closed (Patterns.empty : Patterns inputNum) :=
  ⟨⟨List.nodup_nil, by simp [Patterns.empty]⟩, by simp [Patterns.empty]⟩

section Push

variable {s : Patterns inputNum} {x y : Fin inputNum → Bool}

theorem Indexed.found_iff (indexed : Indexed s) :
    toStr x ∈ s.ppp ↔ x ∈ s.iogenInputPatterns := by
  rw [indexed.keys]
  constructor
  · intro ⟨z, listed, same⟩
    exact toStr_injective same ▸ listed
  · intro listed
    exact ⟨x, listed, rfl⟩

@[simp] theorem mem_record :
    y ∈ (s.record x).iogenInputPatterns ↔ y ∈ s.iogenInputPatterns ∨ y = x := by
  simp [Patterns.record]

@[simp] theorem length_record :
    (s.record x).iogenInputPatterns.length = s.iogenInputPatterns.length + 1 := by
  simp [Patterns.record]

/-- Recording a new vector keeps the list indexed. -/
theorem Indexed.record (indexed : Indexed s) (fresh : x ∉ s.iogenInputPatterns) :
    Indexed (s.record x) := by
  constructor
  · change (s.iogenInputPatterns ++ [x]).Nodup
    exact List.nodup_append.mpr ⟨indexed.distinct, List.nodup_singleton x, fun z listed w last => by
      rw [List.mem_singleton.mp last]
      rintro rfl
      exact fresh listed⟩
  · intro key
    have unknown : toStr x ∉ s.ppp := fun known => fresh (indexed.found_iff.mp known)
    have keys := indexed.keys key
    change key ∈ (if toStr x ∈ s.ppp then s.ppp else toStr x :: s.ppp) ↔ _
    rw [if_neg unknown, List.mem_cons, keys]
    constructor
    · rintro (rfl | ⟨z, listed, same⟩)
      · exact ⟨x, mem_record.mpr (.inr rfl), rfl⟩
      · exact ⟨z, mem_record.mpr (.inl listed), same⟩
    · intro ⟨z, listed, same⟩
      rcases mem_record.mp listed with earlier | rfl
      · exact .inr ⟨z, earlier, same⟩
      · exact .inl same.symm

theorem Indexed.pushNew (indexed : Indexed s) : Indexed (s.pushNew x) := by
  unfold Patterns.pushNew
  split
  · exact indexed
  · next unknown => exact indexed.record fun listed => unknown (indexed.found_iff.mpr listed)

/-- After a push the vector is present, whether or not it was new. -/
theorem Indexed.mem_pushNew (indexed : Indexed s) :
    y ∈ (s.pushNew x).iogenInputPatterns ↔ y ∈ s.iogenInputPatterns ∨ y = x := by
  unfold Patterns.pushNew
  split
  · next known =>
      have present := indexed.found_iff.mp known
      constructor
      · exact .inl
      · rintro (listed | rfl)
        · exact listed
        · exact present
  · exact mem_record

/-- Pushing a vector and its complement adds exactly these two. -/
theorem Indexed.mem_pushPair (indexed : Indexed s) :
    y ∈ ((s.pushNew x).pushNew (flip x)).iogenInputPatterns ↔
      y ∈ s.iogenInputPatterns ∨ y = x ∨ y = flip x := by
  rw [indexed.pushNew.mem_pushNew, indexed.mem_pushNew, or_assoc]

theorem Closed.pushPair (closed : Closed s) : Closed ((s.pushNew x).pushNew (flip x)) := by
  refine ⟨closed.toIndexed.pushNew.pushNew, fun y listed => ?_⟩
  rw [closed.mem_pushPair] at listed ⊢
  rcases listed with earlier | rfl | rfl
  · exact .inl (closed.closed y earlier)
  · exact .inr (.inr rfl)
  · rw [flip_flip]
    exact .inr (.inl rfl)

/-- Each of the four conditional pushes is matched by one of its complement. -/
theorem Closed.printRes (closed : Closed s) (realPI : List (Fin inputNum)) (twoOrder : Bool)
    (index : List Bool) : Closed (printRes realPI twoOrder s index) := by
  unfold FixNetwork.printRes
  cases twoOrder with
  | false => exact closed.pushPair
  | true => exact closed.pushPair.pushPair

/-- A random loop tests only the vector; its complement is new because the list was closed. -/
theorem Closed.recordPair (closed : Closed s) (positive : 1 ≤ inputNum) :
    Closed (s.recordPair x) := by
  unfold Patterns.recordPair
  split
  · exact closed
  · next unknown =>
      have fresh : x ∉ s.iogenInputPatterns := fun listed =>
        unknown (closed.found_iff.mpr listed)
      have other : flip x ∉ (s.record x).iogenInputPatterns := by
        rw [mem_record]
        rintro (listed | same)
        · have back := closed.closed _ listed
          rw [flip_flip] at back
          exact fresh back
        · exact flip_ne positive x same
      refine ⟨(closed.toIndexed.record fresh).record other, fun y listed => ?_⟩
      rw [mem_record, mem_record] at listed ⊢
      rcases listed with (earlier | rfl) | rfl
      · exact .inl (.inl (closed.closed y earlier))
      · exact .inr rfl
      · rw [flip_flip]
        exact .inl (.inr rfl)

end Push

section Visit

/-- The last of some states is one of them, or the state before them. -/
theorem getLastD_of_all {S : Type} {holds : S → Prop} {start : S} {visited : List S}
    (first : holds start) (all : ∀ t ∈ visited, holds t) : holds (visited.getLastD start) := by
  rcases List.mem_cons.mp (List.getLastD_mem_cons (l := visited) (a := start)) with same | listed
  · rw [same]
    exact first
  · exact all _ listed

variable {realPI : List (Fin inputNum)} {holds : Patterns inputNum → Prop}

/-- What every `printRes` call keeps holds after each of them. -/
theorem printAll_visited (each : ∀ twoOrder s index, holds s → holds (printRes realPI twoOrder s index))
    (twoOrder : Bool) {s : Patterns inputNum} (start : holds s) (indices : List (List Bool)) :
    ∀ t ∈ printAll realPI twoOrder s indices, holds t := by
  induction indices generalizing s with
  | nil => simp [printAll]
  | cons index indices ih =>
      have next := each twoOrder s index start
      intro t listed
      rw [printAll] at listed
      rcases List.mem_cons.mp listed with rfl | later
      · exact next
      · exact ih next t later

/-- What every `printRes` call keeps holds after each call of all levels. -/
theorem levels_visited (each : ∀ twoOrder s index, holds s → holds (printRes realPI twoOrder s index))
    {fuel n : ℕ} {patternUpLimit : ℤ} {uninit : ℕ → ℤ} {rounds j k : ℕ} {overLimit : Bool}
    {s : Patterns inputNum} {found : List (Level inputNum)} (start : holds s)
    (returned : levels fuel n patternUpLimit realPI uninit rounds j k overLimit s = some found) :
    ∀ t ∈ found.flatMap Level.visited, holds t := by
  induction rounds generalizing j k overLimit s found with
  | zero =>
      obtain rfl : found = [] := by simpa [levels] using returned.symm
      simp
  | succ rounds ih =>
      simp only [levels, Option.bind_eq_bind, Option.bind_eq_some_iff, Option.pure_def,
        Option.some.injEq] at returned
      obtain ⟨result, -, indices, -, later, rest, rfl⟩ := returned
      have here := printAll_visited each (decide (result > patternUpLimit)) start indices
      intro t listed
      rw [List.flatMap_cons, List.mem_append] at listed
      rcases listed with own | other
      · exact here t own
      · exact ih (getLastD_of_all start here) rest t other

end Visit

section Random

variable {bit : ℕ → Bool} {patternUpLimit i : ℤ} {realPI : List (Fin inputNum)} {rand : ℕ → ℕ}
  {fuel count used : ℕ} {s : Patterns inputNum} {visited : List (Patterns inputNum)}

/-- Each counted round of a random loop adds two vectors; a repeated draw adds none. -/
theorem randomLoop_length
    (returned : randomLoop bit patternUpLimit realPI rand fuel i count s = some (visited, used)) :
    (visited.getLastD s).iogenInputPatterns.length =
      s.iogenInputPatterns.length + 2 * (patternUpLimit - i).toNat := by
  induction fuel generalizing i count s visited with
  | zero => simp [randomLoop] at returned
  | succ fuel ih =>
      rw [randomLoop] at returned
      split at returned
      · next below =>
          obtain ⟨⟨later, last⟩, rest, same⟩ := Option.map_eq_some_iff.mp returned
          obtain ⟨rfl, rfl⟩ := Prod.mk.inj same
          have total := ih rest
          rw [List.getLastD_cons, total, Patterns.recordPair]
          split
          · rfl
          · rw [length_record, length_record]
            omega
      · next full =>
          obtain ⟨rfl, rfl⟩ := Prod.mk.inj (Option.some.inj returned)
          rw [List.getLastD_nil]
          omega

/-- Each round of a random loop keeps the list closed. -/
theorem randomLoop_closed (positive : 1 ≤ inputNum) (closed : Closed s)
    (returned : randomLoop bit patternUpLimit realPI rand fuel i count s = some (visited, used)) :
    ∀ t ∈ visited, Closed t := by
  induction fuel generalizing i count s visited with
  | zero => simp [randomLoop] at returned
  | succ fuel ih =>
      rw [randomLoop] at returned
      split at returned
      · obtain ⟨⟨later, last⟩, rest, same⟩ := Option.map_eq_some_iff.mp returned
        obtain ⟨rfl, rfl⟩ := Prod.mk.inj same
        have next : Closed (s.recordPair (draw bit realPI rand count)) :=
          closed.recordPair positive
        intro t listed
        rcases List.mem_cons.mp listed with rfl | other
        · exact next
        · exact ih next rest t other
      · obtain ⟨rfl, rfl⟩ := Prod.mk.inj (Option.some.inj returned)
        simp

end Random

section Call

variable {fuel n k round count used : ℕ} {patternUpLimit : ℤ} {realPI : List (Fin inputNum)}
  {uninit : ℕ → ℤ} {rand : ℕ → ℕ} {run : Run inputNum}

/-- A call that returns has run its three parts. -/
theorem createPattern_parts
    (returned : createPattern fuel n k round patternUpLimit realPI uninit rand count =
      some (run, used)) :
    levels fuel n patternUpLimit realPI uninit round 0 k false Patterns.empty = some run.levels ∧
      ∃ middle,
        randomLoop extremeBit patternUpLimit realPI rand fuel 0 count run.enumerated =
          some (run.extreme, middle) ∧
        randomLoop plainBit patternUpLimit realPI rand fuel 0 middle
          (run.extreme.getLastD run.enumerated) = some (run.plain, used) := by
  simp only [createPattern, Option.bind_eq_bind, Option.bind_eq_some_iff, Option.pure_def,
    Option.some.injEq, Prod.mk.injEq] at returned
  obtain ⟨found, levelled, ⟨extreme, middle⟩, first, ⟨plain, last⟩, second, rfl, rfl⟩ := returned
  exact ⟨levelled, middle, first, second⟩

theorem getLastD_append {S : Type} (first second : List S) (start : S) :
    (first ++ second).getLastD start = second.getLastD (first.getLastD start) := by
  induction first generalizing start with
  | nil => rfl
  | cons next first ih => rw [List.cons_append, List.getLastD_cons, List.getLastD_cons, ih]

/-- Three inputs of which the first two are real. -/
def sampleRealPI : List (Fin 3) := [0, 1]

/-- These draws give one new vector to each of the two loops. -/
def sampleRand (count : ℕ) : ℕ := [97, 3, 1, 1].getD count 0

/-- The call for these inputs, draws and a limit of one. -/
def sampleCall : Option (Run 3 × ℕ) :=
  createPattern 20 sampleRealPI.length 0 (sampleRealPI.length / 2) 1 sampleRealPI (fun _ => 0)
    sampleRand 0

theorem sampleCall_returns : sampleCall.isSome := by decide

end Call

end LogicRegression.FixNetwork
