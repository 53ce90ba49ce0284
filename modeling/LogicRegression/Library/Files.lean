import LogicRegression.Library.Program

namespace LogicRegression

/-- A directory, the log of the files that were written and the rest of the state. -/
structure World (N C I : Type) where
  files : N → Option C
  produced : List (N × C)
  inner : I

namespace World

variable {N C I : Type}

/-- A written file replaces what was there. -/
def write [DecidableEq N] (name : N) (content : C) (w : World N C I) : World N C I :=
  { w with
    files := Function.update w.files name (some content)
    produced := w.produced ++ [(name, content)] }

/-- The chosen files are removed. -/
def remove (chosen : N → Bool) (w : World N C I) : World N C I :=
  { w with files := fun name => if chosen name then none else w.files name }

@[simp] theorem write_files_self [DecidableEq N] (name : N) (content : C) (w : World N C I) :
    (w.write name content).files name = some content := Function.update_self _ _ _

theorem write_files_of_ne [DecidableEq N] {name other : N} (apart : other ≠ name)
    (content : C) (w : World N C I) : (w.write name content).files other = w.files other :=
  Function.update_of_ne apart _ _

/-- The worlds differ at most in the files that are not known. -/
structure Same (known : Set N) (w v : World N C I) : Prop where
  files : ∀ name ∈ known, w.files name = v.files name
  produced : w.produced = v.produced
  inner : w.inner = v.inner

variable {known later : Set N} {w v : World N C I}

theorem Same.mono (same : Same later w v) (subset : known ⊆ later) : Same known w v :=
  ⟨fun name listed => same.files name (subset listed), same.produced, same.inner⟩

/-- A written file is known afterwards. -/
theorem Same.write [DecidableEq N] (same : Same known w v) (name : N) (content : C) :
    Same (insert name known) (w.write name content) (v.write name content) where
  files other listed := by
    by_cases equal : other = name
    · rw [equal, write_files_self, write_files_self]
    · rw [write_files_of_ne equal, write_files_of_ne equal]
      exact same.files other (listed.resolve_left equal)
  produced := congrArg (· ++ [(name, content)]) same.produced
  inner := same.inner

end World

namespace Program

variable {N C I H A B : Type}

/-- A file that cannot be opened is not there. -/
def readFile (name : N) : Program (World N C I) H (Option C) := observe fun w => w.files name

def writeFile [DecidableEq N] (name : N) (content : C) : Program (World N C I) H Unit :=
  update (World.write name content)

/-- The program stops when the file cannot be opened. -/
def openFile (reason : H) (name : N) : Program (World N C I) H C := do
  match ← readFile name with
  | some content => pure content
  | none => stop reason

section Returns

variable {Q R : (N → Option C) → Prop} {after : B → World N C I → Prop}

/-- A file with a known content is read as this content. -/
theorem Returns.readFile {name : N} {found : Option C} (known : ∀ files, Q files → files name = found)
    {next : Option C → Program (World N C I) H B}
    (rest : Returns (fun w => Q w.files) (next found) after) :
    Returns (fun w => Q w.files) (Program.readFile name >>= next) after := by
  intro w start
  obtain ⟨b, v, finished, holds⟩ := rest w start
  have read : (Program.readFile name : Program (World N C I) H (Option C)) w = (.ok found, w) := by
    rw [← known w.files start]
    rfl
  exact ⟨b, v, (bind_ok read next).trans finished, holds⟩

/-- A file with a known content can be opened. -/
theorem Returns.openFile {name : N} {content : C} (reason : H)
    (known : ∀ files, Q files → files name = some content)
    {next : C → Program (World N C I) H B}
    (rest : Returns (fun w => Q w.files) (next content) after) :
    Returns (fun w => Q w.files) (Program.openFile reason name >>= next) after := by
  intro w start
  obtain ⟨b, v, finished, holds⟩ := rest w start
  have opened : (Program.openFile reason name : Program (World N C I) H C) w = (.ok content, w) := by
    have read : (Program.readFile name : Program (World N C I) H (Option C)) w =
        (.ok (some content), w) := by
      rw [← known w.files start]
      rfl
    exact bind_ok read _
  exact ⟨b, v, (bind_ok opened next).trans finished, holds⟩

/-- A written file is part of what follows. -/
theorem Returns.writeFile [DecidableEq N] (name : N) (content : C)
    (written : ∀ files, Q files → R (Function.update files name (some content)))
    {next : Unit → Program (World N C I) H B}
    (rest : Returns (fun w => R w.files) (next ()) after) :
    Returns (fun w => Q w.files) (Program.writeFile name content >>= next) after := by
  have step : Returns (fun w => Q w.files) (Program.writeFile name content :
      Program (World N C I) H Unit) fun _ w => R w.files :=
    Returns.update _ fun w start => written w.files start
  exact Returns.bind step fun _ => rest

end Returns

section Keeps

/-- No run changes one of these files. -/
def Keeps (kept : Set N) (p : Program (World N C I) H A) : Prop :=
  ∀ files : N → Option C, Ensures (fun w => ∀ name ∈ kept, w.files name = files name) p
    fun _ w => ∀ name ∈ kept, w.files name = files name

variable {kept : Set N} {p : Program (World N C I) H A}

theorem Keeps.pure (a : A) : Keeps kept (Pure.pure a : Program (World N C I) H A) :=
  fun _ => Ensures.pure a fun _ holds => holds

theorem Keeps.stop (reason : H) : Keeps kept (Program.stop reason : Program (World N C I) H A) :=
  fun _ => Ensures.stop reason

theorem Keeps.observe (f : World N C I → A) :
    Keeps kept (Program.observe f : Program (World N C I) H A) :=
  fun _ => Ensures.observe f fun _ holds => holds

theorem Keeps.writeFile [DecidableEq N] {name : N} (apart : name ∉ kept) (content : C) :
    Keeps kept (Program.writeFile name content : Program (World N C I) H Unit) := fun _ =>
  Ensures.update _ fun w holds other listed => by
    have different : other ≠ name := fun equal => apart (equal ▸ listed)
    rw [World.write_files_of_ne different]
    exact holds other listed

theorem Keeps.updateInner (f : I → I) :
    Keeps kept (Program.update fun w => { w with inner := f w.inner } :
      Program (World N C I) H Unit) :=
  fun _ => Ensures.update _ fun _ holds => holds

theorem Keeps.bind {next : A → Program (World N C I) H B} (first : Keeps kept p)
    (second : ∀ a, Keeps kept (next a)) : Keeps kept (p >>= next) :=
  fun files => Ensures.bind (first files) fun a => second a files

theorem Keeps.openFile (reason : H) (name : N) :
    Keeps kept (Program.openFile reason name : Program (World N C I) H C) := by
  apply Keeps.bind (Keeps.observe _)
  intro found
  cases found with
  | none => exact Keeps.stop reason
  | some content => exact Keeps.pure content

theorem Keeps.foldlM {f : A → B → Program (World N C I) H A} {items : List B}
    (step : ∀ item ∈ items, ∀ a, Keeps kept (f a item)) (a : A) :
    Keeps kept (items.foldlM f a) := fun files =>
  Ensures.foldlM (fun _ item split a => step item (split.subset (by simp)) a files) a

/-- What is said about a kept file stays true. -/
theorem Keeps.ensures (keeps : Keeps kept p) {Q : Option C → Prop} {name : N}
    (listed : name ∈ kept) :
    Ensures (fun w => Q (w.files name)) p fun _ w => Q (w.files name) := by
  intro w start a v returned
  have same := keeps w.files w (fun _ _ => rfl) a v returned name listed
  rw [same]
  exact start

end Keeps

section Determined

/-- The run depends on the known files only: two worlds that agree on them give the same value
and the same log, and they agree on the later files. -/
def Determined (known : Set N) (p : Program (World N C I) H A) (later : Set N) : Prop :=
  Agrees (fun w v => w.produced = v.produced) (World.Same known) p fun _ => World.Same later

variable {known later : Set N} {p : Program (World N C I) H A}

theorem Determined.pure (a : A) :
    Determined known (Pure.pure a : Program (World N C I) H A) known :=
  Agrees.pure a (fun _ _ same => same.produced) fun _ _ same => same

theorem Determined.stop (reason : H) :
    Determined known (Program.stop reason : Program (World N C I) H A) later :=
  Agrees.stop reason fun _ _ same => same.produced

theorem Determined.readFile {name : N} (listed : name ∈ known) :
    Determined known (Program.readFile name : Program (World N C I) H (Option C)) known :=
  Agrees.observe _ (fun _ _ same => same.produced) (fun _ _ same => same.files name listed)
    fun _ _ same => same

theorem Determined.writeFile [DecidableEq N] (name : N) (content : C) :
    Determined known (Program.writeFile name content : Program (World N C I) H Unit)
      (insert name known) :=
  Agrees.update _ (fun _ _ same => (same.write name content).produced)
    fun _ _ same => same.write name content

theorem Determined.observeInner (f : I → A) :
    Determined known (Program.observe fun w => f w.inner : Program (World N C I) H A) known :=
  Agrees.observe _ (fun _ _ same => same.produced) (fun _ _ same => congrArg f same.inner)
    fun _ _ same => same

theorem Determined.updateInner (f : I → I) :
    Determined known (Program.update fun w => { w with inner := f w.inner } :
      Program (World N C I) H Unit) known :=
  Agrees.update _ (fun _ _ same => same.produced) fun _ _ same =>
    ⟨same.files, same.produced, congrArg f same.inner⟩

theorem Determined.bind {middle : Set N} {next : A → Program (World N C I) H B}
    (first : Determined known p middle) (second : ∀ a, Determined middle (next a) later) :
    Determined known (p >>= next) later := Agrees.bind first second

theorem Determined.weaken {more less : Set N} (determined : Determined known p later)
    (start : known ⊆ more) (finish : less ⊆ later) : Determined more p less :=
  Agrees.weaken determined (fun _ _ same => same.mono start) fun _ _ _ same => same.mono finish

theorem Determined.openFile (reason : H) {name : N} (listed : name ∈ known) :
    Determined known (Program.openFile reason name : Program (World N C I) H C) known := by
  apply Determined.bind (Determined.readFile listed)
  intro found
  cases found with
  | none => exact Determined.stop reason
  | some content => exact Determined.pure content

/-- A loop that keeps the known files known is determined by them. -/
theorem Determined.foldlM {f : A → B → Program (World N C I) H A} {items : List B}
    (step : ∀ item ∈ items, ∀ a, Determined known (f a item) known) (a : A) :
    Determined known (items.foldlM f a) known :=
  Agrees.foldlM (fun _ _ _ same => same.produced) step a

end Determined

section Confined

/-- The run leaves the kept files alone and depends on the known files only. -/
structure Confined (kept known : Set N) (p : Program (World N C I) H A) (later : Set N) : Prop where
  keeps : Keeps kept p
  determined : Determined known p later

variable {kept known later : Set N} {p : Program (World N C I) H A}

theorem Confined.pure (a : A) :
    Confined kept known (Pure.pure a : Program (World N C I) H A) known :=
  ⟨Keeps.pure a, Determined.pure a⟩

theorem Confined.stop (reason : H) :
    Confined kept known (Program.stop reason : Program (World N C I) H A) later :=
  ⟨Keeps.stop reason, Determined.stop reason⟩

theorem Confined.readFile {name : N} (listed : name ∈ known) :
    Confined kept known (Program.readFile name : Program (World N C I) H (Option C)) known :=
  ⟨Keeps.observe _, Determined.readFile listed⟩

theorem Confined.openFile (reason : H) {name : N} (listed : name ∈ known) :
    Confined kept known (Program.openFile reason name : Program (World N C I) H C) known :=
  ⟨Keeps.openFile reason name, Determined.openFile reason listed⟩

theorem Confined.writeFile [DecidableEq N] {name : N} (apart : name ∉ kept) (content : C) :
    Confined kept known (Program.writeFile name content : Program (World N C I) H Unit)
      (insert name known) :=
  ⟨Keeps.writeFile apart content, Determined.writeFile name content⟩

theorem Confined.observeInner (f : I → A) :
    Confined kept known (Program.observe fun w => f w.inner : Program (World N C I) H A) known :=
  ⟨Keeps.observe _, Determined.observeInner f⟩

theorem Confined.updateInner (f : I → I) :
    Confined kept known (Program.update fun w => { w with inner := f w.inner } :
      Program (World N C I) H Unit) known :=
  ⟨Keeps.updateInner f, Determined.updateInner f⟩

theorem Confined.bind {middle : Set N} {next : A → Program (World N C I) H B}
    (first : Confined kept known p middle) (second : ∀ a, Confined kept middle (next a) later) :
    Confined kept known (p >>= next) later :=
  ⟨Keeps.bind first.keeps fun a => (second a).keeps,
    Determined.bind first.determined fun a => (second a).determined⟩

theorem Confined.weaken {more less : Set N} (confined : Confined kept known p later)
    (start : known ⊆ more) (finish : less ⊆ later) : Confined kept more p less :=
  ⟨confined.keeps, confined.determined.weaken start finish⟩

theorem Confined.foldlM {f : A → B → Program (World N C I) H A} {items : List B}
    (step : ∀ item ∈ items, ∀ a, Confined kept known (f a item) known) (a : A) :
    Confined kept known (items.foldlM f a) known :=
  ⟨Keeps.foldlM (fun item inside b => (step item inside b).keeps) a,
    Determined.foldlM (fun item inside b => (step item inside b).determined) a⟩

end Confined

end Program

end LogicRegression
