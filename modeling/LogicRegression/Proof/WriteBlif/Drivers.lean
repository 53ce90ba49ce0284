import LogicRegression.Library.Netlist
import LogicRegression.Proof.Pattern.ReadInfo
import LogicRegression.Proof.SatOpt.Shape
import LogicRegression.Proof.Synthesis.Exact

namespace LogicRegression.WriteBlif

open Text Binary SatOpt Pattern Synthesis Blif

variable {n m : ℕ} (io : IoNames n m)

/-- The net that the main circuit drives for one output. -/
def mainNet (i : Fin m) : Text := io.output i ++ lit "_main"

theorem mainNet_isWord (i : Fin m) : IsWord (mainNet io i) :=
  (io.words _ (List.getElem_mem _)).append (by decide)

theorem mainNet_injective : Function.Injective (mainNet io) := by
  intro i k same
  have names : io.output i = io.output k := List.append_cancel_right same
  have places := (List.Nodup.getElem_inj_iff io.distinct).mp names
  exact Fin.ext (by simpa using places)

/-- A text of whole lines has one table for an output; only a complete table drives its net. -/
structure IsBlock (i : Fin m) (complete : Prop) (block : Text) : Prop where
  ended : ∃ body, block = body ++ ['\n']
  table : ∃ signals, namesLines block = [lit ".names" :: signals] ∧
    (complete → signals.getLast? = some (mainNet io i)) ∧ (¬ complete → signals = [])

/-- A line with the signals and rows that are no directives are one table. -/
theorem namesLines_table {signals cubes : List Text} {value : Char}
    (signalWords : ∀ name ∈ signals, IsWord name) (solid : isSpace value = false)
    (noDot : value ≠ '.') (plain : ∀ cube ∈ cubes, ∀ c ∈ cube, isSpace c = false ∧ c ≠ '.') :
    namesLines (spaced (lit ".names" :: signals) ++ '\n' ::
      cubes.flatMap fun cube => cube ++ [' ', value] ++ ['\n']) = [lit ".names" :: signals] := by
  have header : ∀ w ∈ lit ".names" :: signals, IsWord w := by
    intro w inside
    cases List.mem_cons.mp inside with
    | inl directive => exact directive ▸ ⟨by decide, by decide⟩
    | inr listed => exact signalWords w listed
  have rows := namesLines_rows solid noDot plain []
  rw [List.append_nil, namesLines_nil] at rows
  rw [namesLines_spaced header, rows, List.head?_cons, if_pos rfl, List.append_nil]

/-- The rows of a table end their lines. -/
theorem ended_table (line : Text) (rows : List Text) :
    ∃ body, line ++ '\n' :: (rows.flatMap fun row => row ++ ['\n']) = body ++ ['\n'] := by
  induction rows using List.reverseRecOn with
  | nil => exact ⟨line, rfl⟩
  | append_singleton rows row _ =>
      exact ⟨line ++ '\n' :: ((rows.flatMap fun row => row ++ ['\n']) ++ row), by simp⟩

/-- A constant output has a table without inputs. -/
theorem isBlock_constant (i : Fin m) (constant01 : ℕ) {complete : Prop}
    (holds : complete) :
    IsBlock io i complete (writeBlifConstant n io.names i constant01) := by
  have place : n + i.val < io.names.length := by rw [io.size]; omega
  have output : io.names.getD (n + i) [] = io.output i := (List.getElem_eq_getD (h := place) []).symm
  have header : ∀ w ∈ [lit ".names", mainNet io i], IsWord w := by
    intro w inside
    fin_cases inside
    · exact ⟨by decide, by decide⟩
    · exact mainNet_isWord io i
  have line : lit ".names " ++ io.output i ++ lit "_main" = spaced [lit ".names", mainNet io i] := by
    rw [spaced_cons, List.flatMap_singleton, mainNet, List.append_assoc]
    rfl
  have value : namesLines (decimal constant01 ++ ['\n']) = [] := by
    have digits : ∀ w ∈ [decimal constant01], IsWord w := by
      intro w inside
      exact List.mem_singleton.mp inside ▸ decimal_isWord constant01
    have single : spaced [decimal constant01] = decimal constant01 := by
      simp [spaced, List.intercalate]
    have other : decimal constant01 ≠ lit ".names" := by
      intro same
      have dot : '.' ∈ decimal constant01 := by rw [same]; decide
      exact absurd (decimal_isDigit dot) (by decide)
    have skipped := namesLines_spaced digits []
    rw [single] at skipped
    rw [skipped, List.head?_cons, if_neg (fun same => other (Option.some.inj same))]
    rfl
  rw [writeBlifConstant, output, line]
  refine ⟨⟨spaced [lit ".names", mainNet io i] ++ '\n' :: decimal constant01, by simp⟩, [mainNet io i],
    ?_, fun _ => rfl, fun missing => absurd holds missing⟩
  rw [namesLines_spaced header, value, List.head?_cons, if_pos rfl]
  rfl

/-- A relation file gives a table over the real inputs, and a lone directive without real inputs. -/
theorem isBlock_relation (sorts : ℕ → StdSort) (hashOrder : HashOrder) (i : Fin m)
    (real : Finset (Fin n)) {golden : (Fin n → Bool) → Fin m → Bool} {rows : List (Fin n → Bool)}
    {infile : Text} (written : words infile = relationWords io.names golden rows) :
    IsBlock io i real.Nonempty
      (writeBlif (satOptimization sorts hashOrder infile (dummyPI (List.ofFn (piStateOf real))) i)) := by
  rw [satOptimization_words sorts hashOrder io i real written]
  by_cases nonempty : real.Nonempty
  · have table := ((foldl_insertRow_isMapOf (keyRows real (fun x => golden x i) rows)).run
      hashOrder).isTable keyRows_shape
    obtain ⟨cubes, results, isCube⟩ := resultPatterns_cubes sorts nonempty.card_pos.ne' table
      (initialOrder_isOrder (keyRows real (fun x => golden x i) rows) real.card)
    have signalWords : ∀ name ∈ (realInputs real).map io.input ++ [mainNet io i], IsWord name := by
      intro name inside
      cases List.mem_append.mp inside with
      | inl input => exact realInputs_isWord io real name input
      | inr last => exact List.mem_singleton.mp last ▸ mainNet_isWord io i
    rw [results, writeBlif_cubes io i nonempty (fun cube listed => (isCube cube listed).size)
      fun cube listed c inside => ((isCube cube listed).solid inside).1]
    have whole := ended_table
      (spaced (lit ".names" :: ((realInputs real).map io.input ++ [mainNet io i])))
      (cubes.map (· ++ lit " 1"))
    rw [List.flatMap_map] at whole
    exact ⟨whole, _, namesLines_table signalWords (by decide) (by decide)
      (fun cube listed c inside => (isCube cube listed).solid inside),
      fun _ => List.getLast?_concat, fun missing => absurd nonempty missing⟩
  · have none : real.card = 0 := by
      rw [Finset.card_eq_zero, ← Finset.not_nonempty_iff_eq_empty]
      exact nonempty
    have empty : writeResult real.card m i
        ((realInputs real).map io.input ++ (List.finRange m).map io.output)
        (resultPatterns sorts real.card
          (hashOrder.run ((keyRows real (fun x => golden x i) rows).foldl insertRow []))
          (initialOrder (keyRows real (fun x => golden x i) rows) real.card)) = [] := by
      rw [writeResult, if_pos (.inl none)]
    rw [empty, writeBlif_nil]
    exact ⟨⟨lit ".names", rfl⟩, [], by decide, fun complete => absurd complete nonempty,
      fun _ => rfl⟩

/-- The start of the file has no table. -/
theorem namesLines_header (rest : Text) :
    namesLines (writeBlifHeader n m io.names ++ rest) = namesLines rest := by
  have directive {w : Text} (word : IsWord w) {names : List Text}
      (all : ∀ name ∈ names, IsWord name) : ∀ v ∈ w :: names, IsWord v := by
    intro v inside
    cases List.mem_cons.mp inside with
    | inl same => exact same ▸ word
    | inr listed => exact all v listed
  have inputWords := io.inputWords
  have outputWords : ∀ name ∈ ((io.names.drop n).take m).map (· ++ lit "_main"), IsWord name := by
    intro name inside
    obtain ⟨output, listed, rfl⟩ := List.mem_map.mp inside
    exact (io.words output (List.mem_of_mem_drop (List.mem_of_mem_take listed))).append (by decide)
  have modelLine : lit ".model main_circuit" = spaced [lit ".model", lit "main_circuit"] := by
    decide
  have inputLine : lit ".inputs" ++ (io.names.take n).flatMap (fun name => ' ' :: name) =
      spaced (lit ".inputs" :: io.names.take n) := (spaced_cons _ _).symm
  have outputLine : lit ".outputs" ++
      (((io.names.drop n).take m).flatMap fun name => ' ' :: name ++ lit "_main") =
        spaced (lit ".outputs" :: ((io.names.drop n).take m).map (· ++ lit "_main")) := by
    rw [spaced_cons, List.flatMap_map]
    rfl
  rw [writeBlifHeader, modelLine, inputLine, outputLine]
  simp only [List.append_assoc, List.cons_append, List.nil_append]
  rw [namesLines_spaced (directive ⟨by decide, by decide⟩ (directive ⟨by decide, by decide⟩ (by simp))),
    namesLines_spaced (directive ⟨by decide, by decide⟩ inputWords),
    namesLines_spaced (directive ⟨by decide, by decide⟩ outputWords)]
  rfl

/-- The tables of blocks are those of each block. -/
theorem namesLines_blocks {A : Type} (items : List A) {block : A → Text}
    (ended : ∀ item ∈ items, ∃ body, block item = body ++ ['\n']) (rest : Text) :
    namesLines (items.flatMap block ++ rest) =
      (items.flatMap fun item => namesLines (block item)) ++ namesLines rest := by
  induction items with
  | nil => rfl
  | cons item items ih =>
      obtain ⟨body, same⟩ := ended item List.mem_cons_self
      have later := ih fun other inside => ended other (List.mem_cons_of_mem item inside)
      rw [List.flatMap_cons, List.flatMap_cons, same, List.append_assoc, List.append_assoc,
        List.singleton_append, namesLines_append, later, List.append_assoc]

/-- Every net is driven once and no directive is alone exactly when all blocks are complete. -/
theorem driven_iff {complete : Fin m → Prop} {block : Fin m → Text}
    (isBlock : ∀ i, IsBlock io i (complete i) (block i)) :
    Driven ((List.finRange m).map (mainNet io))
        (writeBlifHeader n m io.names ++ (List.finRange m).flatMap block ++ writeBlifEnd) ↔
      ∀ i, complete i := by
  have lines : namesLines
      (writeBlifHeader n m io.names ++ (List.finRange m).flatMap block ++ writeBlifEnd) =
        (List.finRange m).flatMap fun i => namesLines (block i) := by
    have finish : namesLines writeBlifEnd = [] := by decide
    rw [List.append_assoc, namesLines_header, namesLines_blocks _ fun i _ => (isBlock i).ended,
      finish, List.append_nil]
  constructor
  · intro driven i
    by_contra missing
    obtain ⟨signals, table, -, empty⟩ := (isBlock i).table
    have listed : lit ".names" :: signals ∈ namesLines
        (writeBlifHeader n m io.names ++ (List.finRange m).flatMap block ++ writeBlifEnd) := by
      rw [lines]
      exact List.mem_flatMap.mpr ⟨i, List.mem_finRange i, by simp [table]⟩
    exact driven.signals _ listed (empty missing)
  · intro all
    constructor
    · intro net inside
      obtain ⟨k, -, rfl⟩ := List.mem_map.mp inside
      rw [lines, Netlist.countP_flatMap_of_unique (List.nodup_finRange m) (List.mem_finRange k)]
      · obtain ⟨signals, table, own, -⟩ := (isBlock k).table
        simp [table, own (all k)]
      · intro i _ apart line listed same
        obtain ⟨signals, table, own, -⟩ := (isBlock i).table
        rw [table, List.mem_singleton] at listed
        have last := of_decide_eq_true same
        rw [listed, List.tail_cons, own (all i), Option.some.injEq] at last
        exact apart (mainNet_injective io last)
    · intro line listed
      rw [lines] at listed
      obtain ⟨i, -, inside⟩ := List.mem_flatMap.mp listed
      obtain ⟨signals, table, own, -⟩ := (isBlock i).table
      rw [table, List.mem_singleton] at inside
      have last := own (all i)
      rw [inside, List.tail_cons]
      rintro rfl
      cases last

end LogicRegression.WriteBlif
