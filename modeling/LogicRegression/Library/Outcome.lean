import LogicRegression.Library.Files

namespace LogicRegression

namespace Program

section Halts

variable {S H A B : Type}

/-- A run from such a state that gives a value reaches such a state, and a run that stops early
stops in such a way. -/
structure Halts (before : S → Prop) (p : Program S H A) (after : A → S → Prop)
    (stopped : H → S → Prop) : Prop where
  value : Ensures before p after
  early : ∀ s, before s → ∀ reason t, p s = (.error reason, t) → stopped reason t

variable {before : S → Prop} {p : Program S H A} {after : A → S → Prop} {stopped : H → S → Prop}

/-- A program that always gives a value does not stop early. -/
theorem Returns.halts (returns : Returns before p after) : Halts before p after stopped where
  value s start a t returned := by
    obtain ⟨b, v, same, holds⟩ := returns s start
    rw [returned] at same
    cases same
    exact holds
  early s start reason t run := by
    obtain ⟨b, v, same, _⟩ := returns s start
    rw [run] at same
    cases same

theorem Halts.pure (a : A) (holds : ∀ s, before s → after a s) :
    Halts before (Pure.pure a : Program S H A) after stopped :=
  Returns.halts (Returns.pure a holds)

theorem Halts.stop {reason : H} (holds : ∀ s, before s → stopped reason s) :
    Halts before (Program.stop reason : Program S H A) after stopped where
  value := Ensures.stop reason
  early s start other t run := by
    cases run
    exact holds s start

theorem Halts.bind {middle : A → S → Prop} {next : A → Program S H B} {final : B → S → Prop}
    (first : Halts before p middle stopped) (second : ∀ a, Halts (middle a) (next a) final stopped) :
    Halts before (p >>= next) final stopped where
  value := Ensures.bind first.value fun a => (second a).value
  early s start reason t run := by
    rcases ended : p s with ⟨other | a, u⟩
    · rw [bind_error ended] at run
      cases run
      exact first.early s start reason t ended
    · rw [bind_ok ended] at run
      exact (second a).early u (first.value s start a u ended) reason t run

theorem Halts.weaken {stronger : S → Prop} {weaker : A → S → Prop} {other : H → S → Prop}
    (triple : Halts before p after stopped) (start : ∀ s, stronger s → before s)
    (finish : ∀ a s, after a s → weaker a s) (stop : ∀ reason s, stopped reason s → other reason s) :
    Halts stronger p weaker other where
  value := triple.value.weaken start finish
  early s holds reason t run := stop reason t (triple.early s (start s holds) reason t run)

/-- A fact that does not depend on the state is available in the proof. -/
theorem Halts.fact {known : Prop} (rest : known → Halts before p after stopped) :
    Halts (fun s => known ∧ before s) p after stopped where
  value s start := (rest start.1).value s start.2
  early s start := (rest start.1).early s start.2

/-- What is known of the state may name a value. -/
theorem Halts.named {holds : B → S → Prop} (rest : ∀ b, Halts (holds b) p after stopped) :
    Halts (fun s => ∃ b, holds b s) p after stopped where
  value s := fun ⟨b, start⟩ => (rest b).value s start
  early s := fun ⟨b, start⟩ => (rest b).early s start

/-- What each run ensures also holds where a run gives a value. -/
theorem Halts.and {other : A → S → Prop} (triple : Halts before p after stopped)
    (ensures : Ensures before p other) :
    Halts before p (fun a s => after a s ∧ other a s) stopped where
  value s start a t returned := ⟨triple.value s start a t returned, ensures s start a t returned⟩
  early := triple.early

/-- The rest of the program may know the state that is looked at. -/
theorem Halts.observedAt {f : S → A} {next : A → Program S H B} {final : B → S → Prop}
    (rest : ∀ s, before s → Halts (· = s) (next (f s)) final stopped) :
    Halts before (Program.observe f >>= next) final stopped where
  value s start := (rest s start).value s rfl
  early s start := (rest s start).early s rfl

/-- A loop keeps an invariant that names the items that are done. -/
theorem Halts.foldlM_done {I : List B → A → S → Prop} {f : A → B → Program S H A} {items : List B}
    (step : ∀ done item, done ++ [item] <+: items → ∀ a,
      Halts (I done a) (f a item) (I (done ++ [item])) stopped) (a : A) :
    Halts (I [] a) (items.foldlM f a) (I items) stopped := by
  have rest (done later : List B) (split : done ++ later = items) (a : A) :
      Halts (I done a) (later.foldlM f a) (I items) stopped := by
    induction later generalizing done a with
    | nil =>
        rw [List.append_nil] at split
        rw [split]
        exact Halts.pure a fun _ holds => holds
    | cons item later ih =>
        have whole : (done ++ [item]) ++ later = items := by simpa using split
        rw [List.foldlM_cons]
        apply Halts.bind (step done item ⟨later, whole⟩ a)
        intro b
        exact ih (done ++ [item]) whole b
  exact rest [] items rfl a

/-- A look at the state leaves it as it is. -/
theorem Halts.observed {f : S → A} {next : A → Program S H B} {final : B → S → Prop}
    (rest : ∀ a, Halts before (next a) final stopped) :
    Halts before (Program.observe f >>= next) final stopped where
  value s start := (rest (f s)).value s start
  early s start := (rest (f s)).early s start

/-- The invariant of a loop holds in front of each round. -/
theorem Halts.foldlM {I : S → Prop} {f : A → B → Program S H A} {items : List B}
    (step : ∀ item ∈ items, ∀ a, Halts I (f a item) (fun _ => I) stopped) (a : A) :
    Halts I (items.foldlM f a) (fun _ => I) stopped := by
  refine Halts.foldlM_done (I := fun _ _ => I) (fun done item before b => ?_) a
  exact step item (before.subset (by simp)) b

end Halts

section Ensures

variable {S H A B : Type} {before : S → Prop} {p : Program S H A} {after other : A → S → Prop}

theorem Returns.ensures (returns : Returns before p after) : Ensures before p after :=
  (Returns.halts returns : Halts before p after fun _ _ => False).value

/-- What each run ensures also holds where a run ends. -/
theorem Returns.and (returns : Returns before p after) (ensures : Ensures before p other) :
    Returns before p fun a s => after a s ∧ other a s := by
  intro s start
  obtain ⟨a, t, returned, holds⟩ := returns s start
  exact ⟨a, t, returned, holds, ensures s start a t returned⟩

/-- A look at the state leaves it as it is. -/
theorem Ensures.observed {f : S → A} {next : A → Program S H B} {final : B → S → Prop}
    (rest : ∀ s, before s → Ensures (· = s) (next (f s)) final) :
    Ensures before (Program.observe f >>= next) final := fun s start =>
  rest s start s rfl

end Ensures

section Frame

variable {N C I H A B : Type}

/-- However a run ends, it changes at most these files. -/
def Frame (written : Set N) (p : Program (World N C I) H A) : Prop :=
  ∀ w, ∀ name ∉ written, (p w).2.files name = w.files name

variable {written : Set N} {p : Program (World N C I) H A}

theorem Frame.pure (a : A) : Frame written (Pure.pure a : Program (World N C I) H A) :=
  fun _ _ _ => rfl

theorem Frame.stop (reason : H) : Frame written (Program.stop reason : Program (World N C I) H A) :=
  fun _ _ _ => rfl

theorem Frame.observe (f : World N C I → A) :
    Frame written (Program.observe f : Program (World N C I) H A) := fun _ _ _ => rfl

theorem Frame.updateInner (f : I → I) :
    Frame written (Program.update fun w => { w with inner := f w.inner } :
      Program (World N C I) H Unit) := fun _ _ _ => rfl

theorem Frame.writeFile [DecidableEq N] {name : N} (listed : name ∈ written) (content : C) :
    Frame written (Program.writeFile name content : Program (World N C I) H Unit) := by
  intro w other outside
  have apart : other ≠ name := fun same => outside (same ▸ listed)
  exact World.write_files_of_ne apart content w

theorem Frame.mono {more : Set N} (frame : Frame written p) (subset : written ⊆ more) :
    Frame more p := fun w name outside => frame w name fun inside => outside (subset inside)

theorem Frame.bind {next : A → Program (World N C I) H B} (first : Frame written p)
    (second : ∀ a, Frame written (next a)) : Frame written (p >>= next) := by
  intro w name outside
  rcases ended : p w with ⟨reason | a, v⟩
  · rw [bind_error ended]
    exact (congrArg (fun run => run.2.files name) ended).symm.trans (first w name outside)
  · have kept : v.files name = w.files name :=
      (congrArg (fun run => run.2.files name) ended).symm.trans (first w name outside)
    rw [bind_ok ended]
    exact (second a v name outside).trans kept

theorem Frame.openFile (reason : H) (name : N) :
    Frame written (Program.openFile reason name : Program (World N C I) H C) := by
  apply Frame.bind (Frame.observe _)
  intro found
  cases found with
  | none => exact Frame.stop reason
  | some content => exact Frame.pure content

theorem Frame.foldlM {f : A → B → Program (World N C I) H A} {items : List B}
    (step : ∀ item ∈ items, ∀ a, Frame written (f a item)) (a : A) :
    Frame written (items.foldlM f a) := by
  induction items generalizing a with
  | nil => exact Frame.pure a
  | cons item items ih =>
      rw [List.foldlM_cons]
      apply Frame.bind (step item List.mem_cons_self a)
      intro b
      exact ih (fun other inside => step other (List.mem_cons_of_mem item inside)) b

/-- What is said about files that are not written stays true. -/
theorem Frame.ensures (frame : Frame written p) {Q : (N → Option C) → Prop}
    (stable : ∀ files others : N → Option C, (∀ name ∉ written, others name = files name) →
      Q files → Q others) : Ensures (fun w => Q w.files) p fun _ w => Q w.files := by
  intro w start a v returned
  refine stable w.files v.files (fun name outside => ?_) start
  exact (congrArg (fun run => run.2.files name) returned).symm.trans (frame w name outside)

/-- The files outside of a set are those of an earlier directory. -/
def Untouched (written : Set N) (files : N → Option C) (w : World N C I) : Prop :=
  ∀ name ∉ written, w.files name = files name

/-- A frame is kept beside everything else that is known of a run, however it ends. -/
theorem Frame.halts {before : World N C I → Prop} {after : A → World N C I → Prop}
    {stopped : H → World N C I → Prop} (frame : Frame written p)
    (triple : Halts before p after stopped) (files : N → Option C) :
    Halts (fun w => before w ∧ Untouched written files w) p
      (fun a w => after a w ∧ Untouched written files w)
      fun reason w => stopped reason w ∧ Untouched written files w where
  value w start a v returned := by
    refine ⟨triple.value w start.1 a v returned, fun name outside => ?_⟩
    have kept := frame w name outside
    rw [returned] at kept
    exact kept.trans (start.2 name outside)
  early w start reason v run := by
    refine ⟨triple.early w start.1 reason v run, fun name outside => ?_⟩
    have kept := frame w name outside
    rw [run] at kept
    exact kept.trans (start.2 name outside)

/-- A file that is opened is there, or the program stops. -/
theorem Halts.openFile {before : World N C I → Prop} {stopped : H → World N C I → Prop} (reason : H)
    {name : N} (missed : ∀ w, before w → w.files name = none → stopped reason w) :
    Halts before (Program.openFile reason name)
      (fun content w => before w ∧ w.files name = some content) stopped := by
  have read : Returns before (Program.readFile name : Program (World N C I) H (Option C))
      fun found w => before w ∧ w.files name = found := Returns.observe _ fun w start => ⟨start, rfl⟩
  apply Halts.bind read.halts
  intro found
  cases found with
  | none => exact Halts.stop fun w start => missed w start.1 start.2
  | some content => exact Halts.pure content fun w start => start

end Frame

end Program

end LogicRegression
