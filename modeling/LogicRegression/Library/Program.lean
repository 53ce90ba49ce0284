import Mathlib.Tactic

namespace LogicRegression

/-- A program changes a state and gives a value, or it stops early for a reason. -/
def Program (S H A : Type) := S → Except H A × S

namespace Program

variable {S H A B : Type}

/-- The second program starts only when the first one gives a value. -/
def bind (p : Program S H A) (next : A → Program S H B) : Program S H B := fun s =>
  match p s with
  | (.ok a, after) => next a after
  | (.error reason, after) => (.error reason, after)

instance : Monad (Program S H) where
  pure a := fun s => (.ok a, s)
  bind := bind

/-- This program stops at once. -/
def stop (reason : H) : Program S H A := fun s => (.error reason, s)

/-- This program looks at the state. -/
def observe (f : S → A) : Program S H A := fun s => (.ok (f s), s)

/-- This program changes the state. -/
def update (f : S → S) : Program S H Unit := fun s => (.ok (), f s)

theorem bind_ok {p : Program S H A} {s after : S} {a : A} (returned : p s = (.ok a, after))
    (next : A → Program S H B) : (p >>= next) s = next a after := by
  change bind p next s = _
  rw [bind, returned]

theorem bind_error {p : Program S H A} {s after : S} {reason : H}
    (stopped : p s = (.error reason, after)) (next : A → Program S H B) :
    (p >>= next) s = (.error reason, after) := by
  change bind p next s = _
  rw [bind, stopped]

/-- The first program matters only through its end. -/
theorem bind_eq {p q : Program S H A} {s t : S} (same : p s = q t) (next : A → Program S H B) :
    (p >>= next) s = (q >>= next) t := by
  change bind p next s = bind q next t
  rw [bind, bind, same]

/-- Three programs run one after the other. -/
theorem bind_bind {C : Type} (p : Program S H A) (next : A → Program S H B)
    (last : B → Program S H C) : p >>= next >>= last = p >>= fun a => next a >>= last := by
  funext s
  rcases run : p s with ⟨reason | a, t⟩
  · rw [bind_error run, bind_error (bind_error run next)]
  · rw [bind_ok run]
    exact bind_eq (bind_ok run next) last

section Returns

/-- Every run from such a state gives a value and reaches such a state. -/
def Returns (before : S → Prop) (p : Program S H A) (after : A → S → Prop) : Prop :=
  ∀ s, before s → ∃ a t, p s = (.ok a, t) ∧ after a t

variable {before : S → Prop} {p : Program S H A} {after : A → S → Prop}

theorem Returns.pure (a : A) (holds : ∀ s, before s → after a s) :
    Returns before (Pure.pure a : Program S H A) after := fun s start =>
  ⟨a, s, rfl, holds s start⟩

theorem Returns.observe (f : S → A) (holds : ∀ s, before s → after (f s) s) :
    Returns before (Program.observe f : Program S H A) after := fun s start =>
  ⟨f s, s, rfl, holds s start⟩

theorem Returns.update {after : Unit → S → Prop} (f : S → S)
    (holds : ∀ s, before s → after () (f s)) :
    Returns before (Program.update f : Program S H Unit) after := fun s start =>
  ⟨(), f s, rfl, holds s start⟩

/-- The values of the first program are handed to the second one. -/
theorem Returns.bind {middle : A → S → Prop} {next : A → Program S H B} {final : B → S → Prop}
    (first : Returns before p middle) (second : ∀ a, Returns (middle a) (next a) final) :
    Returns before (p >>= next) final := by
  intro s start
  obtain ⟨a, t, returned, reached⟩ := first s start
  obtain ⟨b, u, finished, holds⟩ := second a t reached
  exact ⟨b, u, (bind_ok returned next).trans finished, holds⟩

/-- A fact that does not depend on the state is available in the proof. -/
theorem Returns.fact {known : Prop} (rest : known → Returns before p after) :
    Returns (fun s => known ∧ before s) p after := fun s start => rest start.1 s start.2

/-- A look at the state leaves it as it is. -/
theorem Returns.observed {f : S → A} {next : A → Program S H B} {final : B → S → Prop}
    (rest : ∀ a, Returns before (next a) final) :
    Returns before (Program.observe f >>= next) final := fun s start => rest (f s) s start

theorem Returns.weaken {stronger : S → Prop} {weaker : A → S → Prop} (triple : Returns before p after)
    (start : ∀ s, stronger s → before s) (finish : ∀ a s, after a s → weaker a s) :
    Returns stronger p weaker := by
  intro s holds
  obtain ⟨a, t, returned, reached⟩ := triple s (start s holds)
  exact ⟨a, t, returned, finish a t reached⟩

/-- The invariant of a loop names the items that are done. -/
theorem Returns.foldlM {I : List B → A → S → Prop} {f : A → B → Program S H A} {items : List B}
    (step : ∀ done item, done ++ [item] <+: items → ∀ a,
      Returns (I done a) (f a item) (I (done ++ [item]))) (a : A) :
    Returns (I [] a) (items.foldlM f a) (I items) := by
  have rest (done later : List B) (split : done ++ later = items) (a : A) :
      Returns (I done a) (later.foldlM f a) (I items) := by
    induction later generalizing done a with
    | nil =>
        rw [List.append_nil] at split
        rw [split]
        exact Returns.pure a fun _ holds => holds
    | cons item later ih =>
        have whole : (done ++ [item]) ++ later = items := by simpa using split
        rw [List.foldlM_cons]
        apply Returns.bind (step done item ⟨later, whole⟩ a)
        intro b
        exact ih (done ++ [item]) whole b
  exact rest [] items rfl a

end Returns

section Ensures

/-- Every run from such a state that gives a value reaches such a state. -/
def Ensures (before : S → Prop) (p : Program S H A) (after : A → S → Prop) : Prop :=
  ∀ s, before s → ∀ a t, p s = (.ok a, t) → after a t

variable {before : S → Prop} {p : Program S H A} {after : A → S → Prop}

theorem Ensures.pure (a : A) (holds : ∀ s, before s → after a s) :
    Ensures before (Pure.pure a : Program S H A) after := by
  intro s start b t returned
  cases returned
  exact holds s start

/-- Every run ends somewhere. -/
theorem Ensures.anything (p : Program S H A) : Ensures before p fun _ _ => True :=
  fun _ _ _ _ _ => trivial

theorem Ensures.stop (reason : H) : Ensures before (Program.stop reason : Program S H A) after := by
  intro s _ b t returned
  cases returned

theorem Ensures.observe (f : S → A) (holds : ∀ s, before s → after (f s) s) :
    Ensures before (Program.observe f : Program S H A) after := by
  intro s start b t returned
  cases returned
  exact holds s start

theorem Ensures.update {after : Unit → S → Prop} (f : S → S)
    (holds : ∀ s, before s → after () (f s)) :
    Ensures before (Program.update f : Program S H Unit) after := by
  intro s start b t returned
  cases returned
  exact holds s start

theorem Ensures.bind {middle : A → S → Prop} {next : A → Program S H B} {final : B → S → Prop}
    (first : Ensures before p middle) (second : ∀ a, Ensures (middle a) (next a) final) :
    Ensures before (p >>= next) final := by
  intro s start b u finished
  rcases run : p s with ⟨reason | a, t⟩
  · rw [bind_error run] at finished
    cases finished
  · rw [bind_ok run] at finished
    exact second a t (first s start a t run) b u finished

theorem Ensures.weaken {stronger : S → Prop} {weaker : A → S → Prop} (triple : Ensures before p after)
    (start : ∀ s, stronger s → before s) (finish : ∀ a s, after a s → weaker a s) :
    Ensures stronger p weaker := fun s holds a t returned =>
  finish a t (triple s (start s holds) a t returned)

theorem Ensures.foldlM {I : List B → A → S → Prop} {f : A → B → Program S H A} {items : List B}
    (step : ∀ done item, done ++ [item] <+: items → ∀ a,
      Ensures (I done a) (f a item) (I (done ++ [item]))) (a : A) :
    Ensures (I [] a) (items.foldlM f a) (I items) := by
  have rest (done later : List B) (split : done ++ later = items) (a : A) :
      Ensures (I done a) (later.foldlM f a) (I items) := by
    induction later generalizing done a with
    | nil =>
        rw [List.append_nil] at split
        rw [split]
        exact Ensures.pure a fun _ holds => holds
    | cons item later ih =>
        have whole : (done ++ [item]) ++ later = items := by simpa using split
        rw [List.foldlM_cons]
        exact Ensures.bind (step done item ⟨later, whole⟩ a) fun b => ih (done ++ [item]) whole b
  exact rest [] items rfl a

end Ensures

section Agrees

/-- Two runs from related states give the same value or stop for the same reason.
The first relation holds where they end, the second one also when they give a value. -/
def Agrees (always before : S → S → Prop) (p : Program S H A) (after : A → S → S → Prop) : Prop :=
  ∀ s t, before s t → (p s).1 = (p t).1 ∧ always (p s).2 (p t).2 ∧
    ∀ a, (p s).1 = .ok a → after a (p s).2 (p t).2

variable {always before : S → S → Prop} {p : Program S H A} {after : A → S → S → Prop}

theorem Agrees.pure (a : A) (kept : ∀ s t, before s t → always s t)
    (holds : ∀ s t, before s t → after a s t) :
    Agrees always before (Pure.pure a : Program S H A) after := by
  intro s t start
  refine ⟨rfl, kept s t start, fun b same => ?_⟩
  cases same
  exact holds s t start

theorem Agrees.stop (reason : H) (kept : ∀ s t, before s t → always s t) :
    Agrees always before (Program.stop reason : Program S H A) after := by
  intro s t start
  exact ⟨rfl, kept s t start, fun b same => nomatch same⟩

theorem Agrees.observe (f : S → A) (kept : ∀ s t, before s t → always s t)
    (same : ∀ s t, before s t → f s = f t) (holds : ∀ s t, before s t → after (f s) s t) :
    Agrees always before (Program.observe f : Program S H A) after := by
  intro s t start
  refine ⟨congrArg Except.ok (same s t start), kept s t start, fun b value => ?_⟩
  cases value
  exact holds s t start

theorem Agrees.update {after : Unit → S → S → Prop} (f : S → S)
    (kept : ∀ s t, before s t → always (f s) (f t))
    (holds : ∀ s t, before s t → after () (f s) (f t)) :
    Agrees always before (Program.update f : Program S H Unit) after := fun s t start =>
  ⟨rfl, kept s t start, fun _ _ => holds s t start⟩

theorem Agrees.bind {middle : A → S → S → Prop} {next : A → Program S H B}
    {final : B → S → S → Prop} (first : Agrees always before p middle)
    (second : ∀ a, Agrees always (middle a) (next a) final) :
    Agrees always before (p >>= next) final := by
  intro s t start
  obtain ⟨values, kept, reached⟩ := first s t start
  rcases left : p s with ⟨reason | a, s'⟩
  · rcases right : p t with ⟨other, t'⟩
    rw [left, right] at values kept
    obtain rfl : Except.error reason = other := values
    rw [bind_error left, bind_error right]
    exact ⟨rfl, kept, fun b same => nomatch same⟩
  · rcases right : p t with ⟨other, t'⟩
    rw [left, right] at values reached
    obtain rfl : Except.ok a = other := values
    rw [bind_ok left, bind_ok right]
    exact second a s' t' (reached a rfl)

theorem Agrees.weaken {stronger : S → S → Prop} {weaker : A → S → S → Prop}
    (triple : Agrees always before p after) (start : ∀ s t, stronger s t → before s t)
    (finish : ∀ a s t, after a s t → weaker a s t) : Agrees always stronger p weaker := by
  intro s t holds
  obtain ⟨values, kept, reached⟩ := triple s t (start s t holds)
  exact ⟨values, kept, fun a same => finish a _ _ (reached a same)⟩

/-- A fact that does not depend on the states is available in the proof. -/
theorem Agrees.fact {known : Prop} (rest : known → Agrees always before p after) :
    Agrees always (fun s t => known ∧ before s t) p after := fun s t start =>
  rest start.1 s t start.2

/-- What each single run ensures also holds of the first of two runs. -/
theorem Agrees.ensures {start : S → Prop} {finish : A → S → Prop}
    (triple : Agrees always before p after) (single : Ensures start p finish) :
    Agrees always (fun s t => before s t ∧ start s) p fun a s t => after a s t ∧ finish a s := by
  intro s t holds
  obtain ⟨values, kept, reached⟩ := triple s t holds.1
  exact ⟨values, kept, fun a same => ⟨reached a same, single s holds.2 a _ (Prod.ext same rfl)⟩⟩

/-- The two runs of a loop stay in step. -/
theorem Agrees.foldlM {I : A → S → S → Prop} {f : A → B → Program S H A} {items : List B}
    (kept : ∀ a s t, I a s t → always s t)
    (step : ∀ item ∈ items, ∀ a, Agrees always (I a) (f a item) I) (a : A) :
    Agrees always (I a) (items.foldlM f a) I := by
  induction items generalizing a with
  | nil => exact Agrees.pure a (kept a) fun _ _ holds => holds
  | cons item items ih =>
      rw [List.foldlM_cons]
      apply Agrees.bind (step item List.mem_cons_self a)
      intro b
      exact ih (fun other inside => step other (List.mem_cons_of_mem item inside)) b

end Agrees

end Program

end LogicRegression
