import LogicRegression.Proof.Minimize.Termination

namespace LogicRegression.Minimize

open SatOpt

variable {n : ℕ} {clauses : List (List (Lit n))} {current context lits pat high low : List (Lit n)}

/-- A part of some literals beside a context is satisfiable with them. -/
theorem Satisfiable.part {part : List (Lit n)} (satisfiable : Satisfiable clauses (current ++ lits))
    (inside : part ⊆ lits) : Satisfiable clauses (current ++ part) :=
  satisfiable.mono (List.append_subset.mpr
    ⟨List.subset_append_left _ _, List.subset_append_of_subset_right _ inside⟩)

/-- The notion of the statements and the one of the library are the same. -/
theorem minimalCore_iff {result : List (Lit n)} :
    MinimalCore clauses current pat result ↔
      result ⊆ pat ∧ (refutation clauses).IsCore current result := by
  constructor
  · intro core
    constructor
    · exact core.inside
    · constructor
      · exact core.unsatisfiable
      · intro x rest perm unsatisfiable
        obtain ⟨i, inside, rfl⟩ := List.getElem_of_mem (perm.symm.subset List.mem_cons_self)
        have same : rest.Perm (result.eraseIdx i) :=
          (perm.symm.trans (List.getElem_cons_eraseIdx_perm inside).symm).cons_inv
        exact (refutation clauses).holds_of_perm same unsatisfiable (core.minimal i inside)
  · intro core
    exact .of_isCore core.1 core.2

section Contexts

/-- A context of the loops adds a part of the literals; only one adds all of them. -/
theorem mem_contexts (listed : context ∈ contexts current lits) :
    ∃ part, context = current ++ part ∧ part ⊆ lits ∧
      (part = lits ∨ part.length < lits.length) := by
  rcases List.mem_append.mp listed with grown | shrunk
  · obtain ⟨i, inside, rfl⟩ := List.mem_map.mp grown
    rw [List.mem_range] at inside
    use lits.take (i + 1), rfl, List.take_subset _ _
    obtain last | early : lits.length = i + 1 ∨ i + 1 < lits.length := by omega
    · exact .inl (List.take_of_length_le last.le)
    · exact .inr (by rw [List.length_take]; omega)
  · obtain ⟨i, inside, rfl⟩ := List.mem_map.mp shrunk
    rw [List.mem_range] at inside
    use lits.reverse.take (lits.length - 1 - i), rfl
    constructor
    · exact fun l member => List.mem_reverse.mp (List.take_subset _ _ member)
    · exact .inr (by rw [List.length_take, List.length_reverse]; omega)

/-- A part of the literals keeps a context within the context of all of them. -/
theorem context_subset {part half : List (Lit n)} (inside : part ⊆ lits) :
    current ++ part ++ half ⊆ current ++ lits ++ half := by
  intro l
  simp only [List.mem_append]
  exact Or.imp_left (Or.imp_right (inside ·))

theorem reorder_self (inside : lits ⊆ high) : reorder lits high = lits :=
  List.filter_eq_self.mpr fun _ listed => decide_eq_true (inside listed)

/-- The growing loop ends with all literals. -/
theorem whole_mem_contexts (nonempty : lits ≠ []) : current ++ lits ∈ contexts current lits := by
  have positive := List.length_pos_of_ne_nil nonempty
  apply List.mem_append_left
  rw [List.mem_map]
  use lits.length - 1, List.mem_range.mpr (by omega)
  rw [List.take_of_length_le (by omega)]

/-- A shorter part of different literals misses one of them. -/
theorem exists_missing {part : List (Lit n)} (distinct : lits.Nodup)
    (short : part.length < lits.length) : ∃ l ∈ lits, l ∉ part := by
  by_contra none
  push Not at none
  have bound := (distinct.subperm none).length_le
  omega

end Contexts

section Search

variable {self : Call n} {half : List (Lit n)} (good : List (Lit n) → List (Lit n) → Prop)

/-- The search has an answer of one of the contexts, and none of the answers is smaller. -/
structure Found (clauses : List (List (Lit n))) (tried : List (List (Lit n)))
    (search : Search n) : Prop where
  clauses : search.state.soff.clauses = clauses
  answered : tried ≠ [] → ∃ context ∈ tried, good context search.sol
  smallest : ∀ context ∈ tried, ∃ answer, good context answer ∧ search.sol.length ≤ answer.length
  size : search.mini = if tried = [] then 10000 else search.sol.length

variable {good} {tried : List (List (Lit n))} {search : Search n} {answer : State n}

/-- An answer that is not larger becomes the smallest one. -/
theorem Found.replace (found : Found good clauses tried search)
    (kept : answer.soff.clauses = clauses) (isGood : good context answer.result)
    (small : answer.result.length ≤ search.mini) :
    Found good clauses (tried ++ [context]) ⟨answer, answer.result, answer.result.length⟩ := by
  constructor
  · exact kept
  · exact fun _ => ⟨context, by simp, isGood⟩
  · intro other listed
    rcases List.mem_append.mp listed with earlier | last
    · obtain ⟨first, isFirst, least⟩ := found.smallest other earlier
      rw [found.size, if_neg (List.ne_nil_of_mem earlier)] at small
      exact ⟨first, isFirst, small.trans least⟩
    · obtain rfl := List.mem_singleton.mp last
      exact ⟨answer.result, isGood, le_rfl⟩
  · rw [if_neg (by simp)]

/-- A larger answer leaves the smallest one, and there is an earlier one. -/
theorem Found.stay (found : Found good clauses tried search)
    (kept : answer.soff.clauses = clauses) (isGood : good context answer.result)
    (bound : answer.result.length ≤ 10000) (large : search.mini < answer.result.length) :
    Found good clauses (tried ++ [context]) { search with state := answer } := by
  have filled : tried ≠ [] := by
    rintro rfl
    rw [found.size, if_pos rfl] at large
    omega
  have size := found.size
  rw [if_neg filled] at size
  constructor
  · exact kept
  · intro _
    obtain ⟨other, earlier, isAnswer⟩ := found.answered filled
    exact ⟨other, List.mem_append_left _ earlier, isAnswer⟩
  · intro other listed
    rcases List.mem_append.mp listed with earlier | last
    · exact found.smallest other earlier
    · obtain rfl := List.mem_singleton.mp last
      exact ⟨answer.result, isGood, show search.sol.length ≤ answer.result.length by omega⟩
  · rw [if_neg (by simp)]
    exact size

variable (good)

/-- The loops find a smallest answer when all calls answer well. -/
theorem smallest_found {state : State n} (known : state.soff.clauses = clauses)
    (calls : ∀ context ∈ contexts current lits, ∀ result, ∃ answer : State n,
      self ⟨clauses, context⟩ half result = some answer ∧ answer.soff.clauses = clauses ∧
        good context answer.result ∧ answer.result.length ≤ 10000) :
    ∃ search, smallest self half current lits state = some search ∧
      Found good clauses (contexts current lits) search := by
  have start : Found good clauses [] ⟨state, [], 10000⟩ :=
    ⟨known, fun filled => absurd rfl filled, by simp, rfl⟩
  apply Fold.foldlM_prefix start
  intro done context search before found
  have listed : context ∈ contexts current lits := before.subset (by simp)
  obtain ⟨answer, returned, kept, isGood, bound⟩ := calls context listed search.state.result
  have called : self (search.state.soff.copyFrom context) half search.state.result =
      some answer := by
    rw [Solver.copyFrom, found.clauses]
    exact returned
  rw [tryContext_of_call called]
  split
  · next small => exact ⟨_, rfl, found.replace kept isGood small⟩
  · next large => exact ⟨_, rfl, found.stay kept isGood bound (not_le.mp large)⟩

end Search

section Answers

variable (sort : AscendingSort) (inputOrder : InputOrder) {fuel : ℕ}

/-- In an unsatisfiable context method 3 leaves the vector `result` as it is. -/
theorem minimize_three_stale (enough : pat.length ≤ fuel) (nonempty : pat ≠ [])
    (unsatisfiable : ¬ Satisfiable clauses current) (result : List (Lit n)) :
    minimize sort inputOrder 3 fuel ⟨clauses, current⟩ pat result =
      some ⟨⟨clauses, current⟩, result⟩ := by
  induction fuel generalizing pat with
  | zero => exact absurd (List.eq_nil_of_length_eq_zero (by omega)) nonempty
  | succ fuel ih =>
      by_cases single : pat.length = 1
      · obtain ⟨l, rfl⟩ := List.length_eq_one_iff.mp single
        rw [minimize_single (by decide), if_neg unsatisfiable]
      · obtain ⟨high, low, divided, -, -, lowNonempty, -, lowShort⟩ :=
          exists_halves nonempty single
        have refuted : ¬ Satisfiable clauses (current ++ low) := fun satisfiable =>
          unsatisfiable (satisfiable.mono (by simp))
        rw [minimize_three single, exhaustive_eq, divided, if_pos refuted]
        exact ih (show low.length ≤ fuel by omega) lowNonempty

/-- All literals of a satisfiable pattern are kept in their order. -/
theorem minimize_three_all (enough : pat.length ≤ fuel) (nonempty : pat ≠ [])
    (bound : pat.length ≤ 10000) (satisfiable : Satisfiable clauses (current ++ pat))
    (result : List (Lit n)) :
    ∃ final : State n, minimize sort inputOrder 3 fuel ⟨clauses, current⟩ pat result = some final ∧
      final.soff.clauses = clauses ∧ final.result = pat := by
  induction fuel generalizing current pat result with
  | zero => exact absurd (List.eq_nil_of_length_eq_zero (by omega)) nonempty
  | succ fuel ih =>
      by_cases single : pat.length = 1
      · obtain ⟨l, rfl⟩ := List.length_eq_one_iff.mp single
        rw [minimize_single (by decide), if_pos (satisfiable.mono (by simp))]
        exact ⟨_, rfl, rfl, rfl⟩
      · obtain ⟨high, low, divided, rfl, highNonempty, lowNonempty, highShort, lowShort⟩ :=
          exists_halves nonempty single
        rw [minimize_three single, exhaustive_eq, divided]
        -- Every context of a half leaves the whole pattern satisfiable.
        have keeps (half lits : List (Lit n)) (short : half.length < (high ++ low).length)
            (filled : half ≠ []) (both : Satisfiable clauses (current ++ lits ++ half))
            (context : List (Lit n)) (listed : context ∈ contexts current lits)
            (old : List (Lit n)) :
            ∃ answer : State n, minimize sort inputOrder 3 fuel ⟨clauses, context⟩ half old =
              some answer ∧ answer.soff.clauses = clauses ∧ answer.result = half ∧
              answer.result.length ≤ 10000 := by
          obtain ⟨part, rfl, inside, -⟩ := mem_contexts listed
          have less : Satisfiable clauses (current ++ part ++ half) :=
            both.mono (context_subset inside)
          obtain ⟨answer, returned, kept, all⟩ := ih (by omega) filled (by omega) less old
          exact ⟨answer, returned, kept, all, by rw [all]; omega⟩
        have start : (State.mk ⟨clauses, current⟩ result).soff.clauses = clauses := rfl
        obtain ⟨solHigh, first, foundHigh⟩ := smallest_found (fun _ answer => answer = high) start
          (keeps high low highShort highNonempty (satisfiable.mono (by simp)))
        obtain ⟨_, -, allHigh⟩ :=
          foundHigh.answered (List.ne_nil_of_mem (whole_mem_contexts lowNonempty))
        obtain ⟨solLow, second, foundLow⟩ := smallest_found (fun _ answer => answer = low)
          foundHigh.clauses (keeps low high lowShort lowNonempty (by simpa using satisfiable))
        obtain ⟨_, -, allLow⟩ :=
          foundLow.answered (List.ne_nil_of_mem (whole_mem_contexts highNonempty))
        rw [if_neg (not_not.mpr (satisfiable.mono (by simp))), first, Option.bind_some, allHigh,
          reorder_self (fun _ listed => listed), second, Option.bind_some, allLow]
        exact ⟨_, rfl, foundLow.clauses, rfl⟩

end Answers

/-- The contexts of each split agree on what a minimal core is.
A core of the high half beside all of the low half is satisfiable without that half, and a core
beside a part of the low half is one beside all of it, unless it is too large to be chosen. -/
inductive Steady (clauses : List (List (Lit n))) : List (Lit n) → List (Lit n) → Prop
  | single {current : List (Lit n)} (l : Lit n) : Steady clauses current [l]
  | low {current pat : List (Lit n)}
      (unsatisfiable : ¬ Satisfiable clauses (current ++ (divide pat).2))
      (part : Steady clauses current (divide pat).2) : Steady clauses current pat
  | split {current pat : List (Lit n)}
      (satisfiable : Satisfiable clauses (current ++ (divide pat).2))
      (alone : ∀ core, MinimalCore clauses (current ++ (divide pat).2) (divide pat).1 core →
        Satisfiable clauses (current ++ core))
      (agree : ∀ context ∈ contexts current (divide pat).2, ∀ part core,
        MinimalCore clauses context (divide pat).1 part →
        MinimalCore clauses (current ++ (divide pat).2) (divide pat).1 core →
        part.length ≤ core.length →
        MinimalCore clauses (current ++ (divide pat).2) (divide pat).1 part)
      (high : ∀ context ∈ contexts current (divide pat).2,
        ¬ Satisfiable clauses (context ++ (divide pat).1) → Steady clauses context (divide pat).1)
      (low : ∀ core, MinimalCore clauses (current ++ (divide pat).2) (divide pat).1 core →
        Steady clauses (current ++ core) (divide pat).2) : Steady clauses current pat

section Cores

variable {core first second half beside : List (Lit n)} {tried : List (List (Lit n))}
  {search : Search n}

theorem MinimalCore.nodup (minimal : MinimalCore clauses current pat core) : core.Nodup :=
  (minimalCore_iff.mp minimal).2.nodup

theorem MinimalCore.length_le (minimal : MinimalCore clauses current pat core) :
    core.length ≤ pat.length := (minimal.nodup.subperm minimal.inside).length_le

/-- The whole pattern is a core when some core is as large. -/
theorem MinimalCore.whole (minimal : MinimalCore clauses current pat core)
    (large : pat.length ≤ core.length) : MinimalCore clauses current pat pat := by
  have same := (minimal.nodup.subperm minimal.inside).perm_of_length_le large
  exact minimalCore_iff.mpr ⟨List.Subset.refl _, (minimalCore_iff.mp minimal).2.perm same⟩

/-- The cores of the two halves make up a core of the pattern. -/
theorem MinimalCore.append (isFirst : MinimalCore clauses (current ++ low) high first)
    (isSecond : MinimalCore clauses (current ++ first) low second) :
    MinimalCore clauses current (high ++ low) (first ++ second) := by
  have inside : first ++ second ⊆ high ++ low := List.append_subset.mpr
    ⟨List.subset_append_of_subset_left _ isFirst.inside,
      List.subset_append_of_subset_right _ isSecond.inside⟩
  exact .of_isCore inside ((minimalCore_iff.mp isFirst).2.append isSecond.inside
    (minimalCore_iff.mp isSecond).2)

/-- A call answers with its whole half when that is satisfiable, and else with a core. -/
def Answered (clauses : List (List (Lit n))) (half context answer : List (Lit n)) : Prop :=
  Satisfiable clauses (context ++ half) ∧ answer = half ∨ MinimalCore clauses context half answer

theorem Answered.length_le {answer : List (Lit n)} (answered : Answered clauses half context answer) :
    answer.length ≤ half.length := by
  rcases answered with ⟨-, rfl⟩ | minimal
  · exact le_rfl
  · exact minimal.length_le

/-- The smallest answer is a core beside a tried context with which the others agree. -/
theorem Found.minimal (found : Found (Answered clauses half) clauses tried search)
    (listed : beside ∈ tried) (unsatisfiable : ¬ Satisfiable clauses (beside ++ half))
    (agree : ∀ context ∈ tried, ∀ part core, MinimalCore clauses context half part →
      MinimalCore clauses beside half core → part.length ≤ core.length →
      MinimalCore clauses beside half part) : MinimalCore clauses beside half search.sol := by
  obtain ⟨core, answered, least⟩ := found.smallest beside listed
  have minimal := answered.resolve_left fun both => unsatisfiable both.1
  obtain ⟨context, isTried, chosen⟩ := found.answered (List.ne_nil_of_mem listed)
  rcases chosen with ⟨-, whole⟩ | part
  · rw [whole] at least ⊢
    exact minimal.whole least
  · exact agree context isTried _ core part minimal least

/-- Beside the low half only the whole core of the high half is unsatisfiable. -/
theorem MinimalCore.context_cases (minimal : MinimalCore clauses (current ++ low) high core)
    (listed : context ∈ contexts current core) :
    context = current ++ core ∨ Satisfiable clauses (context ++ low) := by
  obtain ⟨part, rfl, inside, whole | short⟩ := mem_contexts listed
  · exact .inl (by rw [whole])
  · obtain ⟨l, member, absent⟩ := exists_missing minimal.nodup short
    have isCore := (minimalCore_iff.mp minimal).2
    have remains := not_not.mp (isCore.missing inside member absent)
    exact .inr (remains.mono (by intro x; simp only [List.mem_append]; tauto))

/-- The two searches of method 3 give a core when the calls answer for their halves. -/
theorem exhaustive_core {self : Call n} {result : List (Lit n)} (lowNonempty : low ≠ [])
    (highBound : high.length ≤ 10000) (lowBound : low.length ≤ 10000)
    (lowSat : Satisfiable clauses (current ++ low))
    (unsatisfiable : ¬ Satisfiable clauses (current ++ (high ++ low)))
    (highCalls : ∀ context ∈ contexts current low, ∀ old, ∃ answer : State n,
      self ⟨clauses, context⟩ high old = some answer ∧ answer.soff.clauses = clauses ∧
        Answered clauses high context answer.result)
    (agree : ∀ context ∈ contexts current low, ∀ part core,
      MinimalCore clauses context high part → MinimalCore clauses (current ++ low) high core →
      part.length ≤ core.length → MinimalCore clauses (current ++ low) high part)
    (lowCalls : ∀ core, MinimalCore clauses (current ++ low) high core →
      ∀ context ∈ contexts current core, ∀ old, ∃ answer : State n,
        self ⟨clauses, context⟩ low old = some answer ∧ answer.soff.clauses = clauses ∧
          Answered clauses low context answer.result) :
    ∃ final : State n, exhaustive self ⟨clauses, current⟩ high low result = some final ∧
      final.soff.clauses = clauses ∧ MinimalCore clauses current (high ++ low) final.result := by
  have start : (State.mk ⟨clauses, current⟩ result).soff.clauses = clauses := rfl
  obtain ⟨solHigh, first, foundHigh⟩ := smallest_found (Answered clauses high) start
    fun context listed old =>
      let ⟨answer, returned, kept, answered⟩ := highCalls context listed old
      ⟨answer, returned, kept, answered, answered.length_le.trans highBound⟩
  have isFirst := foundHigh.minimal (whole_mem_contexts lowNonempty)
    (fun both => unsatisfiable (both.mono (by simp))) agree
  obtain ⟨solLow, second, foundLow⟩ := smallest_found (Answered clauses low) foundHigh.clauses
    fun context listed old =>
      let ⟨answer, returned, kept, answered⟩ := lowCalls _ isFirst context listed old
      ⟨answer, returned, kept, answered, answered.length_le.trans lowBound⟩
  have needed : solHigh.sol ≠ [] := fun empty => by
    have refuted := isFirst.unsatisfiable
    rw [empty, List.append_nil] at refuted
    exact refuted lowSat
  have left : ¬ Satisfiable clauses (current ++ solHigh.sol ++ low) := fun both =>
    isFirst.unsatisfiable (both.mono (by simp))
  have isSecond := foundLow.minimal (whole_mem_contexts needed) left
    fun context listed part core minimal _ _ => by
      rcases isFirst.context_cases listed with rfl | remains
      · exact minimal
      · exact absurd (remains.part minimal.inside) minimal.unsatisfiable
  rw [exhaustive_eq, if_neg (not_not.mpr lowSat), first, Option.bind_some,
    reorder_self isFirst.inside, second, Option.bind_some]
  exact ⟨_, rfl, foundLow.clauses, isFirst.append isSecond⟩

end Cores

/-- One literal is a core when the assumptions alone are satisfiable. -/
theorem minimize_three_single {sort : AscendingSort} {inputOrder : InputOrder} {fuel : ℕ} {l : Lit n}
    (enough : 1 ≤ fuel) (satisfiable : Satisfiable clauses current)
    (unsatisfiable : ¬ Satisfiable clauses (current ++ [l])) (result : List (Lit n)) :
    ∃ final : State n, minimize sort inputOrder 3 fuel ⟨clauses, current⟩ [l] result = some final ∧
      final.soff.clauses = clauses ∧ MinimalCore clauses current [l] final.result := by
  obtain ⟨fuel, rfl⟩ := Nat.exists_eq_add_one_of_ne_zero (Nat.ne_zero_of_lt enough)
  rw [minimize_single (by decide), if_pos satisfiable]
  exact ⟨_, rfl, rfl, minimalCore_iff.mpr
    ⟨List.Subset.refl _, .singleton (not_not.mpr satisfiable) unsatisfiable⟩⟩

/-- A call answers for its half when it returns a core of it in an unsatisfiable context. -/
theorem minimize_three_answered (sort : AscendingSort) (inputOrder : InputOrder) {fuel : ℕ}
    {half old : List (Lit n)} (enough : half.length ≤ fuel) (nonempty : half ≠ [])
    (bound : half.length ≤ 10000)
    (refuted : ¬ Satisfiable clauses (context ++ half) → ∃ answer : State n,
      minimize sort inputOrder 3 fuel ⟨clauses, context⟩ half old = some answer ∧
        answer.soff.clauses = clauses ∧ MinimalCore clauses context half answer.result) :
    ∃ answer : State n, minimize sort inputOrder 3 fuel ⟨clauses, context⟩ half old = some answer ∧
      answer.soff.clauses = clauses ∧ Answered clauses half context answer.result := by
  by_cases both : Satisfiable clauses (context ++ half)
  · obtain ⟨answer, returned, kept, all⟩ :=
      minimize_three_all sort inputOrder enough nonempty bound both old
    exact ⟨answer, returned, kept, .inl ⟨both, all⟩⟩
  · obtain ⟨answer, returned, kept, isCore⟩ := refuted both
    exact ⟨answer, returned, kept, .inr isCore⟩

/-- In steady contexts method 3 returns a core. -/
theorem minimize_three_core (sort : AscendingSort) (inputOrder : InputOrder) {fuel : ℕ}
    (steady : Steady clauses current pat) (enough : pat.length ≤ fuel) (nonempty : pat ≠ [])
    (distinct : pat.Nodup) (bound : pat.length ≤ 10000)
    (satisfiable : Satisfiable clauses current)
    (unsatisfiable : ¬ Satisfiable clauses (current ++ pat)) (result : List (Lit n)) :
    ∃ final : State n, minimize sort inputOrder 3 fuel ⟨clauses, current⟩ pat result = some final ∧
      final.soff.clauses = clauses ∧ MinimalCore clauses current pat final.result := by
  induction steady generalizing fuel result with
  | single l => exact minimize_three_single enough satisfiable unsatisfiable result
  | @low current pat lowUnsat _ ih =>
      by_cases single : pat.length = 1
      · obtain ⟨l, rfl⟩ := List.length_eq_one_iff.mp single
        exact minimize_three_single enough satisfiable unsatisfiable result
      · obtain ⟨high, low, divided, rfl, -, lowNonempty, -, lowShort⟩ :=
          exists_halves nonempty single
        simp only [divided] at lowUnsat ih
        obtain ⟨fuel, rfl⟩ := Nat.exists_eq_add_one_of_ne_zero (show fuel ≠ 0 by omega)
        rw [minimize_three single, exhaustive_eq, divided, if_pos lowUnsat]
        obtain ⟨final, returned, kept, minimal⟩ := ih (show low.length ≤ fuel by omega)
          lowNonempty (List.nodup_append.mp distinct).2.1 (by omega) satisfiable lowUnsat result
        exact ⟨final, returned, kept, List.subset_append_of_subset_right _ minimal.inside,
          minimal.unsatisfiable, minimal.minimal⟩
  | @split current pat lowSat unrefuted agree _ _ highIh lowIh =>
      by_cases single : pat.length = 1
      · obtain ⟨l, rfl⟩ := List.length_eq_one_iff.mp single
        exact minimize_three_single enough satisfiable unsatisfiable result
      · obtain ⟨high, low, divided, rfl, highNonempty, lowNonempty, highShort, lowShort⟩ :=
          exists_halves nonempty single
        simp only [divided] at lowSat unrefuted agree highIh lowIh
        obtain ⟨fuel, rfl⟩ := Nat.exists_eq_add_one_of_ne_zero (show fuel ≠ 0 by omega)
        obtain ⟨highDistinct, lowDistinct, -⟩ := List.nodup_append.mp distinct
        rw [minimize_three single, divided]
        apply exhaustive_core lowNonempty (by omega) (by omega) lowSat unsatisfiable _ agree
        · intro core minimal context listed old
          apply minimize_three_answered sort inputOrder (by omega) lowNonempty (by omega)
          intro both
          obtain rfl := (minimal.context_cases listed).resolve_right both
          exact lowIh core minimal (show low.length ≤ fuel by omega) lowNonempty lowDistinct
            (by omega) (unrefuted core minimal) both old
        · intro context listed old
          apply minimize_three_answered sort inputOrder (by omega) highNonempty (by omega)
          intro both
          obtain ⟨part, rfl, inside, -⟩ := mem_contexts listed
          exact highIh _ listed both (show high.length ≤ fuel by omega) highNonempty highDistinct
            (by omega) (lowSat.part inside) both old

/-- In steady contexts method 3 terminates with a minimal core of different literals. -/
theorem exhaustive_minimal (sort : AscendingSort) (inputOrder : InputOrder) (soff : Solver n)
    (pat : List (Lit n)) (nonempty : pat ≠ []) (distinct : pat.Nodup) (bound : pat.length ≤ 10000)
    (unsatisfiable : ¬ Satisfiable soff.clauses (soff.assumptions ++ pat))
    (steady : Satisfiable soff.clauses soff.assumptions →
      Steady soff.clauses soff.assumptions pat) :
    ∃ fuel final, minimize sort inputOrder 3 fuel soff pat [] = some final ∧
      final.result.Nodup ∧ MinimalCore soff.clauses soff.assumptions pat final.result := by
  use pat.length
  by_cases satisfiable : Satisfiable soff.clauses soff.assumptions
  · obtain ⟨final, returned, -, minimal⟩ := minimize_three_core sort inputOrder
      (steady satisfiable) le_rfl nonempty distinct bound satisfiable unsatisfiable []
    exact ⟨final, returned, minimal.nodup, minimal⟩
  · have stale := minimize_three_stale sort inputOrder le_rfl nonempty satisfiable []
    have minimal : MinimalCore soff.clauses soff.assumptions pat [] :=
      minimalCore_iff.mpr ⟨List.nil_subset _, .nil satisfiable⟩
    exact ⟨_, stale, minimal.nodup, minimal⟩

section Pair

variable {h l : Lit n}

theorem divide_pair : divide [h, l] = ([h], [l]) := by simp [divide, moveLast]

theorem contexts_single : contexts current [l] = [current ++ [l], current] := by
  simp [contexts]

/-- Two literals are steady when each of them is satisfiable beside the assumptions. -/
theorem steady_pair (lowSat : Satisfiable clauses (current ++ [l]))
    (highSat : Satisfiable clauses (current ++ [h])) : Steady clauses current [h, l] := by
  apply Steady.split <;> rw [divide_pair]
  · exact lowSat
  · exact fun core minimal => highSat.part minimal.inside
  · intro context listed part core minimal _ _
    rw [contexts_single] at listed
    rcases List.mem_cons.mp listed with rfl | alone
    · exact minimal
    · obtain rfl := List.mem_singleton.mp alone
      exact absurd (highSat.part minimal.inside) minimal.unsatisfiable
  · exact fun _ _ _ => .single h
  · exact fun _ _ => .single l

/-- Method 3 keeps both of two literals when the second one alone is satisfiable. -/
theorem minimize_pair (sort : AscendingSort) (inputOrder : InputOrder) (fuel : ℕ)
    (lowSat : Satisfiable clauses (current ++ [l])) (result : List (Lit n)) :
    minimize sort inputOrder 3 (fuel + 2) ⟨clauses, current⟩ [h, l] result =
      some ⟨⟨clauses, current⟩, [h, l]⟩ := by
  have alone : Satisfiable clauses current := lowSat.mono (by simp)
  have single (context : List (Lit n)) (x : Lit n) (old : List (Lit n)) :
      minimize sort inputOrder 3 (fuel + 1) ⟨clauses, context⟩ [x] old =
        some ⟨⟨clauses, context⟩, if Satisfiable clauses context then [x] else old⟩ :=
    minimize_single (by decide) x
  rw [minimize_three (by simp), divide_pair, exhaustive_eq, if_neg (not_not.mpr lowSat)]
  -- The call beside the first literal may leave an old answer, which the last call replaces.
  by_cases highSat : Satisfiable clauses (current ++ [h])
  · simp [smallest, contexts_single, tryContext, Solver.copyFrom, single, lowSat, alone, highSat,
      reorder]
  · simp [smallest, contexts_single, tryContext, Solver.copyFrom, single, lowSat, alone, highSat,
      reorder]

/-- For two literals steadiness is what the result needs. -/
theorem pair_minimal_iff (sort : AscendingSort) (inputOrder : InputOrder) (fuel : ℕ)
    (lowSat : Satisfiable clauses (current ++ [l]))
    (unsatisfiable : ¬ Satisfiable clauses (current ++ [h, l])) :
    (∃ final, minimize sort inputOrder 3 (fuel + 2) ⟨clauses, current⟩ [h, l] [] = some final ∧
      MinimalCore clauses current [h, l] final.result) ↔ Satisfiable clauses (current ++ [h]) := by
  constructor
  · intro ⟨final, returned, minimal⟩
    rw [minimize_pair sort inputOrder fuel lowSat, Option.some_inj] at returned
    subst returned
    exact minimal.minimal 1 (by simp)
  · intro highSat
    refine ⟨_, minimize_pair sort inputOrder fuel lowSat [], ?_⟩
    constructor
    · exact List.Subset.refl _
    · exact unsatisfiable
    · intro i inside
      match i with
      | 0 => exact lowSat
      | 1 => exact highSat
      | i + 2 => simp at inside

end Pair

/-- The formula says that the last variable is false. -/
def negatedFormula : List (List (Lit 2)) := [[⟨Fin.last 1, true⟩]]

theorem exhaustive_minimal_sample : ∃ fuel final,
    minimize ascendingSort [] 3 fuel ⟨sampleFormula, []⟩ sampleLits [] = some final ∧
      final.result.Nodup ∧ MinimalCore sampleFormula [] sampleLits final.result :=
  exhaustive_minimal ascendingSort [] ⟨sampleFormula, []⟩ sampleLits (by decide) (by decide)
    (by decide) sampleLits_unsatisfiable fun _ => steady_pair (by decide) (by decide)

/-- The first literal alone is unsatisfiable, but method 3 keeps the second one too. -/
theorem exhaustive_not_minimal :
    ¬ ∀ (sort : AscendingSort) (inputOrder : InputOrder) (n : ℕ) (soff : Solver n)
      (pat : List (Lit n)), pat ≠ [] → pat.Nodup → pat.length ≤ 10000 →
      ¬ Satisfiable soff.clauses (soff.assumptions ++ pat) →
      ∃ fuel final, minimize sort inputOrder 3 fuel soff pat [] = some final ∧
        final.result.Nodup ∧ MinimalCore soff.clauses soff.assumptions pat final.result := by
  intro minimal
  obtain ⟨fuel, final, returned, -, isCore⟩ := minimal ascendingSort [] 2 ⟨negatedFormula, []⟩
    sampleLits (by decide) (by decide) (by decide) (by decide)
  have deeper := minimize_extends _ _ _ _ _ (minimize_extends _ _ _ _ _ returned)
  have alone := (pair_minimal_iff ascendingSort [] fuel (by decide) (by decide)).mp
    ⟨final, deeper, isCore⟩
  exact absurd alone (by decide)

end LogicRegression.Minimize
