import LogicRegression.Library.Outcome

namespace LogicRegression

namespace Program

variable {S H A B : Type}

/-- A run has ended with a value in such a state, or early in such a way. -/
def Ends (after : A → S → Prop) (stopped : H → S → Prop) : Except H A × S → Prop
  | (.ok a, t) => after a t
  | (.error reason, t) => stopped reason t

/-- From each such state all runs with enough fuel end in one and the same way: with a value in such a
state, or early in such a way. -/
def Settles (before : S → Prop) (p : ℕ → Program S H A) (after : A → S → Prop)
    (stopped : H → S → Prop) : Prop :=
  ∀ s, before s → ∃ enough outcome,
    (∀ fuel ≥ enough, p fuel s = outcome) ∧ Ends after stopped outcome

variable {before : S → Prop} {p q : ℕ → Program S H A} {after : A → S → Prop}
  {stopped : H → S → Prop}

/-- A program that needs no fuel. -/
theorem Halts.settles {p : Program S H A} (halts : Halts before p after stopped) :
    Settles before (fun _ => p) after stopped := by
  intro s start
  refine ⟨0, p s, fun _ _ => rfl, ?_⟩
  rcases run : p s with ⟨reason | a, t⟩
  · exact halts.early s start reason t run
  · exact halts.value s start a t run

theorem Returns.settles {p : Program S H A} (returns : Returns before p after) :
    Settles before (fun _ => p) after stopped := returns.halts.settles

/-- Only the runs with enough fuel matter. -/
theorem Settles.congr (settles : Settles before q after stopped) {enough : ℕ}
    (same : ∀ fuel ≥ enough, p fuel = q fuel) : Settles before p after stopped := by
  intro s start
  obtain ⟨least, outcome, settled, ends⟩ := settles s start
  refine ⟨max enough least, outcome, fun fuel large => ?_, ends⟩
  rw [same fuel (le_of_max_le_left large)]
  exact settled fuel (le_of_max_le_right large)

theorem Settles.weaken {stronger : S → Prop} {weaker : A → S → Prop} {other : H → S → Prop}
    (settles : Settles before p after stopped) (start : ∀ s, stronger s → before s)
    (finish : ∀ a s, after a s → weaker a s) (stop : ∀ reason s, stopped reason s → other reason s) :
    Settles stronger p weaker other := by
  intro s holds
  obtain ⟨enough, outcome, settled, ends⟩ := settles s (start s holds)
  refine ⟨enough, outcome, settled, ?_⟩
  rcases outcome with ⟨reason | a, t⟩
  · exact stop reason t ends
  · exact finish a t ends

/-- The runs with enough fuel give this value and end in this state. -/
def Reaches (p : ℕ → Program S H A) (s : S) (a : A) (t : S) : Prop :=
  ∃ enough, ∀ fuel ≥ enough, p fuel s = (.ok a, t)

/-- The end of a part of the run is known to be reached in what follows. -/
theorem Settles.bind_reached {middle : A → S → Prop} {next : ℕ → A → Program S H B}
    {final : B → S → Prop} {s : S} (first : Settles (· = s) p middle stopped)
    (second : ∀ a t, middle a t → Reaches p s a t →
      Settles (· = t) (fun fuel => next fuel a) final stopped) :
    Settles (· = s) (fun fuel => p fuel >>= next fuel) final stopped := by
  rintro u rfl
  obtain ⟨enough, ⟨reason | a, t⟩, settled, ends⟩ := first u rfl
  · exact ⟨enough, (.error reason, t), fun fuel large => bind_error (settled fuel large) _, ends⟩
  · obtain ⟨more, outcome, finished, last⟩ := second a t ends ⟨enough, settled⟩ t rfl
    refine ⟨max enough more, outcome, fun fuel large => ?_, last⟩
    exact (bind_ok (settled fuel (le_of_max_le_left large)) _).trans
      (finished fuel (le_of_max_le_right large))

theorem Settles.bind {middle : A → S → Prop} {next : ℕ → A → Program S H B} {final : B → S → Prop}
    (first : Settles before p middle stopped)
    (second : ∀ a, Settles (middle a) (fun fuel => next fuel a) final stopped) :
    Settles before (fun fuel => p fuel >>= next fuel) final stopped := by
  intro s start
  have begun : Settles (· = s) p middle stopped :=
    first.weaken (fun _ same => same ▸ start) (fun _ _ reached => reached) fun _ _ stopped => stopped
  refine begun.bind_reached (fun a t reached _ => ?_) s rfl
  exact (second a).weaken (fun _ same => same ▸ reached) (fun _ _ finish => finish)
    fun _ _ stopped => stopped

/-- A fact that does not depend on the state is available in the proof. -/
theorem Settles.fact {known : Prop} (rest : known → Settles before p after stopped) :
    Settles (fun s => known ∧ before s) p after stopped := fun s start => rest start.1 s start.2

/-- A look at the state leaves it as it is. -/
theorem Settles.observed {f : S → A} {next : ℕ → A → Program S H B} {final : B → S → Prop}
    (rest : ∀ s, before s → Settles (· = s) (fun fuel => next fuel (f s)) final stopped) :
    Settles before (fun fuel => Program.observe f >>= next fuel) final stopped := fun s start =>
  rest s start s rfl

/-- A search that keeps its result with more fuel either has one in the end or never has one. -/
theorem Settles.search (search : ℕ → Option B) (next : B → ℕ → Program S H A) (reason : H)
    (mono : ∀ fuel more b, fuel ≤ more → search fuel = some b → search more = some b)
    (missed : ∀ fuel, search fuel = none → p fuel = Program.stop reason)
    (found : ∀ fuel b, search fuel = some b → p fuel = next b fuel)
    (endless : (∀ fuel, search fuel = none) → ∀ s, before s → stopped reason s)
    (rest : ∀ fuel b, search fuel = some b → Settles before (next b) after stopped) :
    Settles before p after stopped := by
  by_cases ends : ∃ fuel b, search fuel = some b
  · obtain ⟨enough, b, result⟩ := ends
    apply (rest enough b result).congr
    exact fun fuel large => found fuel b (mono enough fuel b large result)
  · have never (fuel : ℕ) : search fuel = none :=
      Option.eq_none_iff_forall_ne_some.mpr fun b result => ends ⟨fuel, b, result⟩
    intro s start
    refine ⟨0, (.error reason, s), fun fuel _ => ?_, endless never s start⟩
    rw [missed fuel (never fuel)]
    rfl

/-- What is known of every run also holds of the runs with enough fuel. -/
theorem Settles.and {other : A → S → Prop} {early : H → S → Prop}
    (settles : Settles before p after stopped) (halts : ∀ fuel, Halts before (p fuel) other early) :
    Settles before p (fun a s => after a s ∧ other a s)
      fun reason s => stopped reason s ∧ early reason s := by
  intro s start
  obtain ⟨enough, outcome, settled, ends⟩ := settles s start
  refine ⟨enough, outcome, settled, ?_⟩
  have run := settled enough le_rfl
  rcases outcome with ⟨reason | a, t⟩
  · exact ⟨ends, (halts enough).early s start reason t run⟩
  · exact ⟨ends, (halts enough).value s start a t run⟩

section Reaches

theorem Reaches.pure (a : A) (s : S) : Reaches (fun _ => (Pure.pure a : Program S H A)) s a s :=
  ⟨0, fun _ _ => rfl⟩

theorem foldlM_append (f : A → B → Program S H A) (first second : List B) (a : A) :
    (first ++ second).foldlM f a = first.foldlM f a >>= fun b => second.foldlM f b := by
  induction first generalizing a with
  | nil => rfl
  | cons item first ih =>
      rw [List.cons_append, List.foldlM_cons, List.foldlM_cons, bind_bind]
      congr 1
      funext b
      exact ih b

/-- The rounds that are done and one more. -/
theorem Reaches.append {f : ℕ → A → B → Program S H A} {done : List B} {item : B} {s t u : S}
    {start a b : A} (rounds : Reaches (fun fuel => done.foldlM (f fuel) start) s a t)
    (round : Reaches (fun fuel => f fuel a item) t b u) :
    Reaches (fun fuel => (done ++ [item]).foldlM (f fuel) start) s b u := by
  obtain ⟨enough, returned⟩ := rounds
  obtain ⟨more, finished⟩ := round
  refine ⟨max enough more, fun fuel large => ?_⟩
  have round := finished fuel (le_of_max_le_right large)
  change (done ++ [item]).foldlM (f fuel) start s = _
  rw [foldlM_append, bind_ok (returned fuel (le_of_max_le_left large)), List.foldlM_cons,
    bind_ok round]
  rfl

/-- Each round of a loop starts where the rounds before it have ended. -/
theorem Settles.foldlM_reached {I : List B → A → S → Prop} {f : ℕ → A → B → Program S H A}
    {items : List B} {start : A} {s : S}
    (step : ∀ done item later, done ++ item :: later = items → ∀ a t, I done a t →
      Reaches (fun fuel => done.foldlM (f fuel) start) s a t →
        Settles (· = t) (fun fuel => f fuel a item) (I (done ++ [item])) stopped)
    (begun : I [] start s) :
    Settles (· = s) (fun fuel => items.foldlM (f fuel) start) (I items) stopped := by
  have rest (done later : List B) (split : done ++ later = items) (a : A) (t : S) (holds : I done a t)
      (reached : Reaches (fun fuel => done.foldlM (f fuel) start) s a t) :
      Settles (· = t) (fun fuel => later.foldlM (f fuel) a) (I items) stopped := by
    induction later generalizing done a t with
    | nil =>
        rw [List.append_nil] at split
        subst split
        apply Returns.settles
        apply Returns.pure
        rintro _ rfl
        exact holds
    | cons item later ih =>
        simp only [List.foldlM_cons]
        apply Settles.bind_reached (step done item later split a t holds reached)
        intro b u next round
        exact ih (done ++ [item]) (by simpa using split) b u next (reached.append round)
  exact rest [] items rfl start s begun (Reaches.pure start s)

end Reaches

/-- A frame is kept beside everything else that is known of the runs. -/
theorem Settles.frame {N C I : Type} {before : World N C I → Prop} {p : ℕ → Program (World N C I) H A}
    {after : A → World N C I → Prop} {stopped : H → World N C I → Prop} {written : Set N}
    (settles : Settles before p after stopped) (frame : ∀ fuel, Frame written (p fuel))
    (files : N → Option C) :
    Settles (fun w => before w ∧ Untouched written files w) p
      (fun a w => after a w ∧ Untouched written files w)
      fun reason w => stopped reason w ∧ Untouched written files w := by
  intro w start
  obtain ⟨enough, outcome, settled, ends⟩ := settles w start.1
  refine ⟨enough, outcome, settled, ?_⟩
  have kept := frame enough w
  rw [settled enough le_rfl] at kept
  have same : Untouched written files outcome.2 := fun name outside =>
    (kept name outside).trans (start.2 name outside)
  rcases outcome with ⟨reason | a, t⟩
  · exact ⟨ends, same⟩
  · exact ⟨ends, same⟩

end Program

end LogicRegression
