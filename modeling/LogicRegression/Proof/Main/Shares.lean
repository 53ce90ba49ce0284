import LogicRegression.Proof.Main.Leftover

namespace LogicRegression.Main

open Text Program TimingFunc

variable {n m : ℕ}

/-- The number of real inputs of an output. -/
def realCount (realPIToPO : List (List (Fin n))) (i : Fin m) : ℕ := (realPIToPO.getD i []).length

/-- The state before the second loop of `main`: the first entry of `timing_info` is a total. -/
def beforeFix (env : Environment n m) (notTruthTablePO : List (Fin m))
    (realPIToPO : List (List (Fin n))) : FixState m :=
  ⟨⟨(notTruthTablePO.map (realCount realPIToPO)).sum, 0, env.patternPerMin⟩,
    fun _ => (false, false)⟩

/-- One round of the second loop with the call of `Timing_function` as a parameter, which may keep a
memory of its calls. -/
def fixRound {L : Type} (timing : Fin m → ℤ → TimingInfo → L → (ℤ × TimingInfo) × L)
    (env : Environment n m) (start : ℤ) (notTruthTablePO : List (Fin m))
    (realPIToPO : List (List (Fin n))) (run : FixState m × L) (i : Fin m) :
    Stage (FixState m × L) := do
  if i ∈ notTruthTablePO then
    let now ← tick env.time
    let (timingInfo, memory) := timing i (now - start) (entryInfo realPIToPO run.1 i) run.2
    let _ ← tick env.time
    let flags ← fixNetwork env i (Binary.toInt timingInfo.1) (realPIToPO.getD i [])
    let _ ← tick env.time
    return (⟨timingInfo.2, Function.update run.1.found i flags⟩, memory)
  else return run

/-- One round in which `Timing_function` records the argument of each call. -/
def fixRecorded (env : Environment n m) (start : ℤ) (gatecnt : ℕ) (notTruthTablePO : List (Fin m))
    (realPIToPO : List (List (Fin n))) :
    FixState m × List (Fin m × TimingInfo) → Fin m →
      Stage (FixState m × List (Fin m × TimingInfo)) :=
  fixRound (fun i elapsed timingInfo calls =>
    (timingFunction env.rounding elapsed gatecnt timingInfo (env.undefined i),
      calls ++ [(i, timingInfo)])) env start notTruthTablePO realPIToPO

/-- The real inputs of this output of the list and of all later ones. -/
def laterCount (notTruthTablePO : List (Fin m)) (realPIToPO : List (List (Fin n))) (k : ℕ) : ℕ :=
  ∑ j ∈ notTruthTablePO.toFinset.filter fun j => k ≤ j.val, realCount realPIToPO j

/-- A call gets the share of its output among the outputs that are left. -/
structure FairCall (rounding : Rounding) (notTruthTablePO : List (Fin m))
    (realPIToPO : List (List (Fin n))) (i : Fin m) (entry : TimingInfo) : Prop where
  own : entry.piNum = realCount realPIToPO i
  rest : entry.restPI = laterCount notTruthTablePO realPIToPO i
  share : 0 < entry.restPI → ∃ ratio, piNumRatio rounding entry = some ratio ∧ 0 ≤ ratio ∧ ratio ≤ 1
  last : realCount realPIToPO i ≠ 0 →
    (∀ j ∈ notTruthTablePO, i < j → realCount realPIToPO j = 0) → piNumRatio rounding entry = some 1

section Shares

variable {notTruthTablePO : List (Fin m)} (realPIToPO : List (List (Fin n)))

/-- A listed output is taken off the sum of the outputs that are left. -/
theorem laterCount_listed {i : Fin m} (listed : i ∈ notTruthTablePO) :
    laterCount notTruthTablePO realPIToPO i =
      realCount realPIToPO i + laterCount notTruthTablePO realPIToPO (i + 1) := by
  have cut : (notTruthTablePO.toFinset.filter fun j => i.val ≤ j.val) =
      insert i (notTruthTablePO.toFinset.filter fun j => i.val + 1 ≤ j.val) := by
    ext j
    simp only [Finset.mem_filter, Finset.mem_insert, List.mem_toFinset]
    constructor
    · intro later
      by_cases same : j = i
      · exact .inl same
      · exact .inr ⟨later.1, by have := Fin.val_ne_of_ne same; omega⟩
    · intro known
      cases known with
      | inl same =>
          rw [same]
          exact ⟨listed, le_refl _⟩
      | inr later => exact ⟨later.1, by omega⟩
  rw [laterCount, cut, Finset.sum_insert (by simp)]
  rfl

/-- Another output leaves the sum as it is. -/
theorem laterCount_unlisted {i : Fin m} (absent : i ∉ notTruthTablePO) :
    laterCount notTruthTablePO realPIToPO i = laterCount notTruthTablePO realPIToPO (i + 1) := by
  unfold laterCount
  congr 1
  ext j
  simp only [Finset.mem_filter, List.mem_toFinset]
  apply and_congr_right
  intro listed
  have different : j.val ≠ i.val := fun same => absent (Fin.ext same ▸ listed)
  omega

theorem laterCount_zero (distinct : notTruthTablePO.Nodup) :
    laterCount notTruthTablePO realPIToPO 0 =
      (notTruthTablePO.map (realCount realPIToPO)).sum := by
  rw [laterCount, Finset.filter_true_of_mem fun j _ => Nat.zero_le _, List.sum_toFinset _ distinct]

theorem laterCount_end : laterCount notTruthTablePO realPIToPO m = 0 := by
  rw [laterCount, Finset.filter_false_of_mem fun j _ => by omega, Finset.sum_empty]

/-- When the first entry is the sum of the outputs that are left, the call is fair. -/
theorem fairCall_of_rest (rounding : Rounding) {i : Fin m} (listed : i ∈ notTruthTablePO)
    {state : FixState m} (rest : state.timingInfo.restPI = laterCount notTruthTablePO realPIToPO i) :
    FairCall rounding notTruthTablePO realPIToPO i (entryInfo realPIToPO state i) := by
  have split : (state.timingInfo.restPI : ℤ) = realCount realPIToPO i +
      laterCount notTruthTablePO realPIToPO (i + 1) := by
    rw [rest, laterCount_listed realPIToPO listed, Nat.cast_add]
  have one : rounding.run 1 = 1 := by
    have half := rounding.half 2 (by norm_num)
    rwa [show ((2 : ℤ) : ℚ) / 2 = 1 by norm_num] at half
  refine ⟨rfl, rest, fun positive => ?_, fun own empty => ?_⟩
  · have nonzero : state.timingInfo.restPI ≠ 0 := positive.ne'
    have rationalPositive : (0 : ℚ) < state.timingInfo.restPI := by exact_mod_cast positive
    have shareNonneg : (0 : ℚ) ≤ (realCount realPIToPO i : ℤ) / (state.timingInfo.restPI : ℚ) := by
      positivity
    refine ⟨_, if_neg nonzero, rounding.nonneg shareNonneg, ?_⟩
    have share : ((realCount realPIToPO i : ℤ) : ℚ) / (state.timingInfo.restPI : ℚ) ≤ 1 := by
      rw [div_le_one rationalPositive]
      exact_mod_cast (by omega : (realCount realPIToPO i : ℤ) ≤ state.timingInfo.restPI)
    exact (rounding.mono _ _ share).trans_eq one
  · have none : laterCount notTruthTablePO realPIToPO (i + 1) = 0 := by
      apply Finset.sum_eq_zero
      intro j later
      obtain ⟨inside, after⟩ := Finset.mem_filter.mp later
      exact empty j (List.mem_toFinset.mp inside) (by rw [Fin.lt_def]; omega)
    have whole : state.timingInfo.restPI = realCount realPIToPO i := by omega
    have nonzero : state.timingInfo.restPI ≠ 0 := by omega
    have ratio : ((realCount realPIToPO i : ℤ) : ℚ) / (state.timingInfo.restPI : ℚ) = 1 := by
      rw [whole]
      exact div_self (by exact_mod_cast own)
    have share := congrArg rounding.run ratio
    rw [one] at share
    exact (if_neg nonzero).trans (congrArg some share)

variable (env : Environment n m) (start : ℤ) (gatecnt : ℕ)

/-- A round takes a listed output off the first entry, whatever the clock says. -/
theorem fixOutput_rest (state : FixState m) (i : Fin m) :
    Ensures (fun _ => True) (fixOutput env start gatecnt notTruthTablePO realPIToPO state i)
      fun after _ => after.timingInfo.restPI = state.timingInfo.restPI -
        if i ∈ notTruthTablePO then realCount realPIToPO i else 0 := by
  rw [fixOutput]
  split
  · exact Ensures.bind (Ensures.anything _) fun now => Ensures.bind (Ensures.anything _) fun _ =>
      Ensures.bind (Ensures.anything _) fun flags => Ensures.bind (Ensures.anything _) fun _ =>
        Ensures.pure _ fun _ _ => rfl
  · exact Ensures.pure _ fun _ _ => by simp

/-- The record is that of the listed outputs, and it changes nothing in the round. -/
theorem fixRecorded_eq (run : FixState m × List (Fin m × TimingInfo)) (i : Fin m) :
    fixRecorded env start gatecnt notTruthTablePO realPIToPO run i =
      fixOutput env start gatecnt notTruthTablePO realPIToPO run.1 i >>= fun state =>
        pure (state, if i ∈ notTruthTablePO then run.2 ++ [(i, entryInfo realPIToPO run.1 i)]
          else run.2) := by
  by_cases listed : i ∈ notTruthTablePO
  · simp only [fixRecorded, fixRound, fixOutput, if_pos listed, bind_bind]
    rfl
  · simp only [fixRecorded, fixRound, fixOutput, if_neg listed]
    rfl

/-- The rounds so far have called for the listed outputs in their order, each time fairly. -/
structure Accounted (rounding : Rounding) (notTruthTablePO : List (Fin m))
    (realPIToPO : List (List (Fin n))) (done : List (Fin m))
    (run : FixState m × List (Fin m × TimingInfo)) : Prop where
  rest : run.1.timingInfo.restPI = laterCount notTruthTablePO realPIToPO done.length
  calls : run.2.map Prod.fst = done.filter (· ∈ notTruthTablePO)
  fair : ∀ call ∈ run.2, FairCall rounding notTruthTablePO realPIToPO call.1 call.2

/-- The rounds go through the outputs one by one. -/
theorem round_index {done : List (Fin m)} {i : Fin m} (before : done ++ [i] <+: List.finRange m) :
    done.length = i := by
  obtain ⟨later, split⟩ := before
  have present : (List.finRange m)[done.length]? = some i := by
    rw [← split]
    simp
  obtain ⟨inside, same⟩ := List.getElem?_eq_some_iff.mp present
  rw [← same]
  simp

/-- One round keeps the account. -/
theorem fixRecorded_accounted {done : List (Fin m)} {i : Fin m}
    (before : done ++ [i] <+: List.finRange m) (run : FixState m × List (Fin m × TimingInfo)) :
    Ensures (fun _ => Accounted env.rounding notTruthTablePO realPIToPO done run)
      (fixRecorded env start gatecnt notTruthTablePO realPIToPO run i)
      fun after _ => Accounted env.rounding notTruthTablePO realPIToPO (done ++ [i]) after := by
  intro w account after v returned
  have index := round_index before
  have step : Ensures (fun _ => True)
      (fixRecorded env start gatecnt notTruthTablePO realPIToPO run i) fun after _ =>
        after.1.timingInfo.restPI = run.1.timingInfo.restPI -
            (if i ∈ notTruthTablePO then realCount realPIToPO i else 0) ∧
          after.2 = if i ∈ notTruthTablePO then run.2 ++ [(i, entryInfo realPIToPO run.1 i)]
            else run.2 := by
    rw [fixRecorded_eq]
    exact Ensures.bind (fixOutput_rest realPIToPO env start gatecnt run.1 i) fun state =>
      Ensures.pure _ fun _ rest => ⟨rest, rfl⟩
  obtain ⟨rest, calls⟩ := step w trivial after v returned
  have entry : run.1.timingInfo.restPI = laterCount notTruthTablePO realPIToPO i :=
    index ▸ account.rest
  by_cases listed : i ∈ notTruthTablePO
  · rw [if_pos listed] at rest calls
    constructor
    · rw [rest, entry, laterCount_listed realPIToPO listed, List.length_append, index]
      push_cast
      simp
    · rw [calls, List.map_append, account.calls, List.filter_append]
      simp [listed]
    · intro call inside
      rw [calls] at inside
      rcases List.mem_append.mp inside with earlier | last
      · exact account.fair call earlier
      · rw [List.mem_singleton.mp last]
        exact fairCall_of_rest realPIToPO env.rounding listed entry
  · rw [if_neg listed] at rest calls
    constructor
    · rw [rest, entry, laterCount_unlisted realPIToPO listed, List.length_append, index]
      simp
    · rw [calls, account.calls, List.filter_append]
      simp [listed]
    · rw [calls]
      exact account.fair

/-- The record changes nothing in the loop. -/
theorem fixRecorded_states (items : List (Fin m)) (run : FixState m × List (Fin m × TimingInfo)) :
    (items.foldlM (fixRecorded env start gatecnt notTruthTablePO realPIToPO) run >>= fun last =>
        pure last.1) =
      items.foldlM (fixOutput env start gatecnt notTruthTablePO realPIToPO) run.1 := by
  induction items generalizing run with
  | nil => rfl
  | cons i items ih =>
      funext w
      rw [List.foldlM_cons, List.foldlM_cons]
      rcases round : fixOutput env start gatecnt notTruthTablePO realPIToPO run.1 i w with
        ⟨reason | state, v⟩
      · have stopped : fixRecorded env start gatecnt notTruthTablePO realPIToPO run i w =
            (.error reason, v) := by
          rw [fixRecorded_eq]
          exact bind_error round _
        rw [bind_error round, bind_error (bind_error stopped _)]
      · have returned : fixRecorded env start gatecnt notTruthTablePO realPIToPO run i w =
            (.ok (state, if i ∈ notTruthTablePO then
              run.2 ++ [(i, entryInfo realPIToPO run.1 i)] else run.2), v) := by
          rw [fixRecorded_eq]
          exact bind_ok round _
        rw [bind_ok round, ← ih (state, _)]
        exact bind_eq (bind_ok returned _) _

/-- A strictly increasing list of outputs is what the search for them finds. -/
theorem filter_finRange (sorted : notTruthTablePO.Pairwise (· < ·)) :
    (List.finRange m).filter (· ∈ notTruthTablePO) = notTruthTablePO := by
  apply List.Perm.eq_of_pairwise (fun i j _ _ less more => absurd less (lt_asymm more))
    ((List.pairwise_lt_finRange m).filter _) sorted
  apply (List.perm_ext_iff_of_nodup ((List.nodup_finRange m).filter _)
    (sorted.imp fun less => ne_of_lt less)).mpr
  simp

/-- In every run of the loop each call finds the sum of the outputs that are left, and the calls
go through the list once. -/
theorem timing_shares (sorted : notTruthTablePO.Pairwise (· < ·)) {k : ℕ} (within : k ≤ m) :
    (((List.finRange m).take k).foldlM
        (fixRecorded env start gatecnt notTruthTablePO realPIToPO)
        (beforeFix env notTruthTablePO realPIToPO, []) >>= fun last => pure last.1) =
      ((List.finRange m).take k).foldlM (fixOutput env start gatecnt notTruthTablePO realPIToPO)
        (beforeFix env notTruthTablePO realPIToPO) ∧
    Ensures (fun _ => True)
      (((List.finRange m).take k).foldlM
        (fixRecorded env start gatecnt notTruthTablePO realPIToPO)
        (beforeFix env notTruthTablePO realPIToPO, []))
      fun run _ =>
        run.2.map Prod.fst <+: notTruthTablePO ∧
        (∀ call ∈ run.2, FairCall env.rounding notTruthTablePO realPIToPO call.1 call.2) ∧
        (∀ i : Fin m, i.val = k → i ∈ notTruthTablePO →
          FairCall env.rounding notTruthTablePO realPIToPO i (entryInfo realPIToPO run.1 i)) ∧
        (k = m → run.2.map Prod.fst = notTruthTablePO ∧ run.1.timingInfo.restPI = 0) := by
  refine ⟨fixRecorded_states realPIToPO env start gatecnt _ _, ?_⟩
  have total : Accounted env.rounding notTruthTablePO realPIToPO []
      (beforeFix env notTruthTablePO realPIToPO, []) := by
    refine ⟨?_, rfl, by simp⟩
    rw [List.length_nil, laterCount_zero realPIToPO (sorted.imp fun less => ne_of_lt less)]
    rfl
  have step (done : List (Fin m)) (i : Fin m) (before : done ++ [i] <+: (List.finRange m).take k)
      (run : FixState m × List (Fin m × TimingInfo)) :
      Ensures (fun _ => Accounted env.rounding notTruthTablePO realPIToPO done run)
        (fixRecorded env start gatecnt notTruthTablePO realPIToPO run i)
        fun after _ => Accounted env.rounding notTruthTablePO realPIToPO (done ++ [i]) after :=
    fixRecorded_accounted realPIToPO env start gatecnt (before.trans (List.take_prefix k _)) run
  refine (Ensures.foldlM step _).weaken (fun _ _ => total) fun run _ account => ?_
  have rest := account.rest
  rw [List.length_take, List.length_finRange, Nat.min_eq_left within] at rest
  refine ⟨?_, account.fair, fun i next listed => ?_, fun all => ?_⟩
  · have part := (List.take_prefix k (List.finRange m)).filter (· ∈ notTruthTablePO)
    rwa [filter_finRange sorted, ← account.calls] at part
  · subst next
    exact fairCall_of_rest realPIToPO env.rounding listed rest
  · subst all
    rw [account.calls, List.take_of_length_le (by simp), filter_finRange sorted]
    exact ⟨rfl, by rw [rest, laterCount_end]; rfl⟩

end Shares

theorem timing_shares_sample :
    Ensures (fun _ => True)
      (((List.finRange 1).take 1).foldlM (fixRecorded constantEnvironment 0 0 [0] [[3, 5]])
        (beforeFix constantEnvironment [0] [[3, 5]], []))
      fun run _ => run.2.map Prod.fst = [0] ∧ run.1.timingInfo.restPI = 0 := by
  have whole := (timing_shares [[3, 5]] constantEnvironment 0 0
    (List.pairwise_singleton _ (0 : Fin 1)) (le_refl 1)).2
  exact whole.weaken (fun _ _ => trivial) fun _ _ holds => holds.2.2.2 rfl

end LogicRegression.Main
