import LogicRegression.Construction.MixVerilog
import LogicRegression.Library.Token
import LogicRegression.Proof.Iogen.Reference

namespace LogicRegression.MixVerilog

open Text

/-- The loop over one line cuts out each occurrence of the suffix. -/
theorem removeMain_eq (line : Text) : removeMain line = Token.erase '_' (lit "main") line := by
  fun_induction removeMain line with
  | case1 rest ih => exact ih.trans (Token.erase_token rest).symm
  | case2 c rest noToken ih =>
      have absent : ¬ '_' :: lit "main" <+: c :: rest := by
        intro ⟨after, same⟩
        obtain ⟨rfl, tail⟩ := List.cons.inj same
        exact noToken after rfl tail.symm
      rw [Token.erase_cons absent, ih]
  | case3 => exact Token.erase_nil.symm

/-- A line of a circuit text consists of net names and of glue: keywords, gates and punctuation. -/
inductive Piece where
  | net (name : Text)
  | glue (text : Text)

namespace Piece

def text : Piece → Text
  | .net name => name
  | .glue text => text

def rename (f : Text → Text) : Piece → Piece
  | .net name => .net (f name)
  | .glue text => .glue text

def net? : Piece → Option Text
  | .net name => some name
  | .glue _ => none

/-- The suffix does not occur in glue. -/
def Clean : Piece → Prop
  | .net _ => True
  | .glue text => ¬ lit "_main" <:+: text

/-- No suffix can reach from a piece into the next one. -/
def Separated : Piece → Piece → Prop
  | .net _, .net _ => False
  | .net _, .glue text => ∃ c ∈ text.head?, c ∉ lit "main"
  | .glue text, _ => ∀ c ∈ text.getLast?, c ∉ lit "_mai"

theorem Separated.apart {first second : Piece} (separated : first.Separated second) (more : Text) :
    Token.Apart '_' (lit "main") first.text (second.text ++ more) := by
  cases first with
  | glue text => exact .inr separated
  | net name =>
      cases second with
      | net _ => exact separated.elim
      | glue text =>
          obtain ⟨c, start, outside⟩ := separated
          refine .inl fun d first => ?_
          rw [Piece.text, List.head?_append, Option.mem_def.mp start] at first
          exact Option.some.inj first ▸ outside

end Piece

def lineText (line : List Piece) : Text := line.flatMap Piece.text

/-- The pieces of a line are separated, and the line has no line break. -/
structure IsLine (line : List Piece) : Prop where
  separated : line.IsChain Piece.Separated
  clean : ∀ piece ∈ line, piece.Clean
  single : '\n' ∉ lineText line

/-- The removal changes the nets of a line and nothing else. -/
theorem removeMain_lineText {line : List Piece} (separated : line.IsChain Piece.Separated)
    (clean : ∀ piece ∈ line, piece.Clean) :
    removeMain (lineText line) = lineText (line.map (Piece.rename removeMain)) := by
  have alone {piece : Piece} (own : piece.Clean) :
      removeMain piece.text = (piece.rename removeMain).text := by
    cases piece with
    | net name => rfl
    | glue text => exact (removeMain_eq text).trans (Token.erase_eq_self_iff.mpr own)
  induction line with
  | nil => rfl
  | cons piece line ih =>
      have own := alone (clean piece (by simp))
      have later := ih separated.tail fun other listed => clean other (by simp [listed])
      have apart : Token.Apart '_' (lit "main") piece.text (lineText line) := by
        cases line with
        | nil => exact .inl (by simp [lineText])
        | cons next line => exact (List.isChain_cons_cons.mp separated).1.apart _
      rw [removeMain_eq] at own later ⊢
      change Token.erase _ _ (piece.text ++ lineText line) = _
      rw [Token.erase_append apart, own, later]
      rfl

/-- A circuit text has a title line, the lines of its port list and the lines of its body. -/
structure Source where
  title : Text
  portList : List (List Piece)
  body : List (List Piece)

namespace Source

def lines (source : Source) : List (List Piece) := source.portList ++ source.body

def text (source : Source) : Text :=
  source.title ++ '\n' :: source.lines.flatMap fun line => lineText line ++ ['\n']

def ports (source : Source) : List Text := source.portList.flatMap (List.filterMap Piece.net?)

def nets (source : Source) : List Text := source.lines.flatMap (List.filterMap Piece.net?)

/-- Another title and other net names leave the glue where it was. -/
def rename (source : Source) (title : Text) (f : Text → Text) : Source where
  title := title
  portList := source.portList.map (List.map (Piece.rename f))
  body := source.body.map (List.map (Piece.rename f))

structure Valid (source : Source) : Prop where
  title : '\n' ∉ source.title
  lines : ∀ line ∈ source.lines, IsLine line

variable (source : Source) (title : Text) (f : Text → Text)

theorem rename_lines : (source.rename title f).lines =
    source.lines.map (List.map (Piece.rename f)) := by
  simp [lines, rename]

theorem filterMap_rename (line : List Piece) :
    (line.map (Piece.rename f)).filterMap Piece.net? = (line.filterMap Piece.net?).map f := by
  induction line with
  | nil => rfl
  | cons piece line ih => cases piece <;> simp [List.filterMap_cons, Piece.rename, Piece.net?, ih]

theorem rename_ports : (source.rename title f).ports = source.ports.map f := by
  rw [ports, ports, List.map_flatMap, rename, List.flatMap_map]
  exact List.flatMap_congr fun line _ => filterMap_rename f line

theorem rename_nets : (source.rename title f).nets = source.nets.map f := by
  rw [nets, nets, rename_lines, List.map_flatMap, List.flatMap_map]
  exact List.flatMap_congr fun line _ => filterMap_rename f line

theorem ports_subset {net : Text} (listed : net ∈ source.ports) : net ∈ source.nets := by
  rw [nets, lines, List.flatMap_append]
  exact List.mem_append_left _ listed

end Source

/-- Without any fault the written module is the original text under a new title and new names. -/
theorem mixCircuit_original {files : Text → Option Text} {ioNames : List Text}
    {inputNum outputNum : ℕ} {source : Source} (valid : source.Valid)
    (correct : ∀ i < outputNum, faultStatus files i = (false, false))
    (original : files (lit "beyond_original_circuit.v") = some source.text) :
    mixCircuit files ioNames inputNum outputNum =
      (source.rename (lit "module top (") removeMain).text := by
  have noFault : ((List.range outputNum).all fun i => faultStatus files i = (false, false)) =
      true := by
    rw [List.all_eq_true]
    intro i inside
    exact decide_eq_true (correct i (List.mem_range.mp inside))
  have read : (lines source.text).drop 1 = source.lines.map lineText := by
    have body := lines_flatMap lineText source.lines [] fun line listed =>
      (valid.lines line listed).single
    rw [lines_nil, List.append_nil, List.append_nil] at body
    rw [Source.text, lines_append_cons valid.title, List.drop_one, List.tail_cons, body]
  rw [mixCircuit, if_pos noFault, original, Option.getD_some, read, Source.text,
    Source.rename_lines, List.flatMap_map, List.flatMap_map]
  congr 2
  apply List.flatMap_congr
  intro line listed
  have isLine := valid.lines line listed
  rw [removeMain_lineText isLine.separated isLine.clean]

/-- Two names are the same apart from the occurrences of the suffix in them. -/
def SameApart (first second : Text) : Prop :=
  ∃ pieces others : List Text,
    (∀ piece ∈ pieces ++ others, ¬ lit "_main" <:+: piece) ∧
    (lit "_main").intercalate pieces = first ∧ (lit "_main").intercalate others = second ∧
    pieces.flatten = others.flatten

/-- The removal merges two names exactly when they are the same apart from the suffix. -/
theorem removeMain_eq_iff {first second : Text} :
    removeMain first = removeMain second ↔ SameApart first second := by
  have borderless : '_' ∉ lit "main" := by decide
  rw [removeMain_eq, removeMain_eq]
  constructor
  · intro same
    obtain ⟨pieces, clean, rfl⟩ := Token.exists_pieces '_' (lit "main") first
    obtain ⟨others, cleanOthers, rfl⟩ := Token.exists_pieces '_' (lit "main") second
    rw [Token.erase_intercalate borderless clean, Token.erase_intercalate borderless cleanOthers]
      at same
    refine ⟨pieces, others, fun piece listed => ?_, rfl, rfl, same⟩
    exact (List.mem_append.mp listed).elim (clean piece) (cleanOthers piece)
  · rintro ⟨pieces, others, clean, rfl, rfl, same⟩
    have first := Token.erase_intercalate borderless fun piece listed =>
      clean piece (List.mem_append_left _ listed)
    have second := Token.erase_intercalate borderless fun piece listed =>
      clean piece (List.mem_append_right _ listed)
    exact first.trans (same.trans second.symm)

theorem removeMain_eq_self_iff {name : Text} :
    removeMain name = name ↔ ¬ lit "_main" <:+: name := by
  rw [removeMain_eq]
  exact Token.erase_eq_self_iff

/-- The added suffix is removed together with those that were there before. -/
theorem removeMain_suffix (name : Text) : removeMain (name ++ lit "_main") = removeMain name := by
  have borderless : '_' ∉ lit "main" := by decide
  have apart := Token.apart_token borderless name []
  rw [List.append_nil] at apart
  rw [removeMain_eq, removeMain_eq]
  refine (Token.erase_append apart).trans ?_
  rw [show Token.erase '_' (lit "main") ('_' :: lit "main") = [] from
    (removeMain_eq (lit "_main")).symm.trans (by decide), List.append_nil]

/-- No `io_name` contains the suffix, no other net has the name of an output, and no other net
with the suffix is the same as a second net apart from the suffix. -/
structure SuffixFree {n m : ℕ} (io : IoNames n m) (source : Source) : Prop where
  names : ∀ name ∈ io.names, ¬ lit "_main" <:+: name
  outputs : ∀ name ∈ io.names.drop n, name ∉ source.nets
  inner : ∀ net ∈ source.nets, net ∉ source.ports → lit "_main" <:+: net →
    ∀ other ∈ source.nets, other ≠ net → ¬ SameApart other net

section Suffix

variable {n m : ℕ} {io : IoNames n m} {source : Source}

/-- The ports come back exactly when no name contains the suffix. -/
theorem ports_restored_iff
    (ports : source.ports = io.names.take n ++ (io.names.drop n).map (· ++ lit "_main")) :
    source.ports.map removeMain = io.names ↔ ∀ name ∈ io.names, ¬ lit "_main" <:+: name := by
  have names : source.ports.map removeMain = io.names.map removeMain := by
    rw [ports, List.map_append, List.map_map]
    conv_rhs => rw [← List.take_append_drop n io.names, List.map_append]
    congr 1
    apply List.map_congr_left
    intro name _
    exact removeMain_suffix name
  rw [names]
  constructor
  · intro same name listed
    have own : removeMain name = name := by
      obtain ⟨i, present⟩ := List.mem_iff_getElem?.mp listed
      have image := congrArg (·[i]?) same
      simpa [present] using image
    exact removeMain_eq_self_iff.mp own
  · intro free
    conv_rhs => rw [← List.map_id io.names]
    apply List.map_congr_left
    intro name listed
    exact removeMain_eq_self_iff.mpr (free name listed)

/-- A net whose name does not contain the suffix, or an output with the suffix. -/
theorem net_cases (free : SuffixFree io source)
    (ports : source.ports = io.names.take n ++ (io.names.drop n).map (· ++ lit "_main"))
    {net : Text} (listed : net ∈ source.nets) :
    (removeMain net = net) ∨ (∃ name ∈ io.names.drop n, net = name ++ lit "_main") ∨
      ∀ other ∈ source.nets, other ≠ net → ¬ SameApart other net := by
  by_cases token : lit "_main" <:+: net
  · by_cases port : net ∈ source.ports
    · rw [ports, List.mem_append] at port
      rcases port with input | output
      · exact absurd token (free.names net (List.mem_of_mem_take input))
      · obtain ⟨name, inside, rfl⟩ := List.mem_map.mp output
        exact .inr (.inl ⟨name, inside, rfl⟩)
    · exact .inr (.inr (free.inner net listed port token))
  · exact .inl (removeMain_eq_self_iff.mpr token)

/-- Under the condition two nets that get the same name are one net. -/
theorem net_eq_of_removeMain_eq (free : SuffixFree io source)
    (ports : source.ports = io.names.take n ++ (io.names.drop n).map (· ++ lit "_main"))
    {first second : Text} (inFirst : first ∈ source.nets) (inSecond : second ∈ source.nets)
    (same : removeMain first = removeMain second) : first = second := by
  by_contra different
  have output {name : Text} (listed : name ∈ io.names.drop n) :
      removeMain (name ++ lit "_main") = name := by
    rw [removeMain_suffix]
    exact removeMain_eq_self_iff.mpr (free.names name (List.mem_of_mem_drop listed))
  rcases net_cases free ports inFirst with plain | ⟨name, listed, rfl⟩ | apart
  · rcases net_cases free ports inSecond with other | ⟨name, listed, rfl⟩ | apart
    · exact different (plain.symm.trans (same.trans other))
    · rw [plain, output listed] at same
      exact free.outputs name listed (same ▸ inFirst)
    · exact apart first inFirst different (removeMain_eq_iff.mp same)
  · rcases net_cases free ports inSecond with other | ⟨second, inside, rfl⟩ | apart
    · rw [other, output listed] at same
      exact free.outputs name listed (same ▸ inSecond)
    · rw [output listed, output inside] at same
      exact different (same ▸ rfl)
    · exact apart _ inFirst different (removeMain_eq_iff.mp same)
  · exact apart second inSecond (Ne.symm different) (removeMain_eq_iff.mp same.symm)

/-- The renaming gives back the ports and merges no nets. -/
def Undone (io : IoNames n m) (source top : Source) : Prop :=
  top.ports = io.names ∧ ∀ i j : ℕ, ∀ first second : Text, source.nets[i]? = some first →
    source.nets[j]? = some second → first ≠ second → top.nets[i]? ≠ top.nets[j]?

section Undone

variable (ports : source.ports = io.names.take n ++ (io.names.drop n).map (· ++ lit "_main"))
include ports

theorem undone_iff :
    Undone io source (source.rename (lit "module top (") removeMain) ↔ SuffixFree io source := by
  rw [Undone, Source.rename_ports, Source.rename_nets, ports_restored_iff ports]
  constructor
  · intro ⟨names, apart⟩
    have different {first second : Text} (inFirst : first ∈ source.nets)
        (inSecond : second ∈ source.nets) (differ : first ≠ second) :
        removeMain first ≠ removeMain second := by
      obtain ⟨i, atFirst⟩ := List.mem_iff_getElem?.mp inFirst
      obtain ⟨j, atSecond⟩ := List.mem_iff_getElem?.mp inSecond
      have images := apart i j first second atFirst atSecond differ
      rw [List.getElem?_map, List.getElem?_map, atFirst, atSecond] at images
      exact fun same => images (congrArg some same)
    refine ⟨names, fun name listed present => ?_, fun net inside _ _ other listed differ same => ?_⟩
    · have suffixed : name ++ lit "_main" ∈ source.nets := by
        apply source.ports_subset
        rw [ports]
        exact List.mem_append_right _ (List.mem_map_of_mem listed)
      exact different suffixed present (by simp [lit]) (removeMain_suffix name)
    · exact different listed inside differ (removeMain_eq_iff.mpr same)
  · intro free
    refine ⟨free.names, fun i j first second atFirst atSecond differ same => differ ?_⟩
    rw [List.getElem?_map, List.getElem?_map, atFirst, atSecond] at same
    exact net_eq_of_removeMain_eq free ports (List.mem_of_getElem? atFirst)
      (List.mem_of_getElem? atSecond) (Option.some.inj same)

/-- When no inner net contains the suffix, as in a file of the optimiser, no name may contain it and no
net may be called like an output. -/
theorem undone_iff_of_plain
    (inner : ∀ net ∈ source.nets, net ∉ source.ports → ¬ lit "_main" <:+: net) :
    Undone io source (source.rename (lit "module top (") removeMain) ↔
      (∀ name ∈ io.names, ¬ lit "_main" <:+: name) ∧ ∀ name ∈ io.names.drop n, name ∉ source.nets := by
  rw [undone_iff ports]
  constructor
  · exact fun free => ⟨free.names, free.outputs⟩
  · rintro ⟨names, outputs⟩
    exact ⟨names, outputs, fun net listed outside token => absurd token (inner net listed outside)⟩

end Undone

/-- The written module has the names of the file as its ports, and no two nets are merged, exactly
when the suffix occurs nowhere else. -/
theorem suffix_removed_iff (io : IoNames n m) {files : Text → Option Text} (valid : source.Valid)
    (correct : ∀ i < m, faultStatus files i = (false, false))
    (original : files (lit "beyond_original_circuit.v") = some source.text)
    (ports : source.ports = io.names.take n ++ (io.names.drop n).map (· ++ lit "_main")) :
    let top := source.rename (lit "module top (") removeMain
    mixCircuit files io.names n m = top.text ∧
      ((top.ports = io.names ∧ ∀ i j : ℕ, ∀ first second : Text, source.nets[i]? = some first →
          source.nets[j]? = some second → first ≠ second → top.nets[i]? ≠ top.nets[j]?) ↔
        SuffixFree io source) := by
  intro top
  exact ⟨mixCircuit_original valid correct original, undone_iff ports⟩

end Suffix

section Sample

/-- A circuit with one gate over two inputs. -/
def gateSource (first second : Text) : Source where
  title := lit "module main_circuit ("
  portList := [[.glue (lit "  "), .net first, .glue (lit ", "), .net second, .glue (lit ", "),
    .net (lit "z_main"), .glue (lit " );")]]
  body := [[.glue (lit "  and  ( "), .net (lit "z_main"), .glue (lit ", "), .net first,
    .glue (lit ", "), .net second, .glue (lit " );")], [.glue (lit "endmodule")]]

/-- Only the text of the original circuit is there. -/
def originalFile (source : Source) (name : Text) : Option Text :=
  if name = lit "beyond_original_circuit.v" then some source.text else none

theorem gateSource_valid {first second : Text} (noBreak : '\n' ∉ first ++ second) :
    (gateSource first second).Valid := by
  rw [List.mem_append, not_or] at noBreak
  refine ⟨by simp [gateSource, lit], fun line listed => ?_⟩
  simp only [Source.lines, gateSource, List.cons_append, List.nil_append, List.mem_cons,
    List.not_mem_nil, or_false] at listed
  rcases listed with rfl | rfl | rfl
  · exact ⟨by simp [Piece.Separated, lit], by simp [Piece.Clean]; decide,
      by simp [lineText, Piece.text, noBreak, lit]⟩
  · exact ⟨by simp [Piece.Separated, lit], by simp [Piece.Clean]; decide,
      by simp [lineText, Piece.text, noBreak, lit]⟩
  · exact ⟨by simp, by simp [Piece.Clean]; decide, by simp [lineText, Piece.text, lit]⟩

theorem suffix_removed_iff_sample :
    let source := gateSource (lit "a") (lit "b")
    let top := source.rename (lit "module top (") removeMain
    mixCircuit (originalFile source) sampleNames.names 2 1 = top.text ∧
      top.ports = sampleNames.names ∧ ∀ i j : ℕ, ∀ first second : Text,
        source.nets[i]? = some first → source.nets[j]? = some second → first ≠ second →
          top.nets[i]? ≠ top.nets[j]? := by
  intro source top
  have inside : ∀ net ∈ (gateSource (lit "a") (lit "b")).nets,
      net ∈ (gateSource (lit "a") (lit "b")).ports := by decide
  have free : SuffixFree sampleNames source :=
    ⟨by decide, by decide, fun net listed outside => absurd (inside net listed) outside⟩
  obtain ⟨text, restored⟩ := suffix_removed_iff sampleNames (gateSource_valid (by decide)) (by decide)
    (rfl : originalFile source (lit "beyond_original_circuit.v") = some source.text) rfl
  exact ⟨text, restored.mpr free⟩

/-- The inputs have the names `a` and `a_main`. -/
def mergedNames : IoNames 2 1 where
  names := [lit "a", lit "a_main", lit "z"]
  size := rfl
  words := fun name listed => by fin_cases listed <;> exact ⟨by decide, by decide⟩
  distinct := by decide

/-- The ports `a` and `a_main` of a circuit without faults become one port `a`. -/
theorem suffix_merges_inputs :
    let source := gateSource (lit "a") (lit "a_main")
    let top := source.rename (lit "module top (") removeMain
    source.Valid ∧ (∀ i < 1, faultStatus (originalFile source) i = (false, false)) ∧
      originalFile source (lit "beyond_original_circuit.v") = some source.text ∧
      source.ports = mergedNames.names.take 2 ++
        (mergedNames.names.drop 2).map (· ++ lit "_main") ∧
      mixCircuit (originalFile source) mergedNames.names 2 1 = top.text ∧
      top.ports = [lit "a", lit "a", lit "z"] ∧ top.ports ≠ mergedNames.names ∧
      ¬ ∀ i j : ℕ, ∀ first second : Text, source.nets[i]? = some first →
        source.nets[j]? = some second → first ≠ second → top.nets[i]? ≠ top.nets[j]? := by
  intro source top
  have valid : source.Valid := gateSource_valid (by decide)
  have correct : ∀ i < 1, faultStatus (originalFile source) i = (false, false) := by decide
  refine ⟨valid, correct, rfl, rfl, mixCircuit_original valid correct rfl, by decide, by decide,
    fun apart => ?_⟩
  exact apart 0 1 (lit "a") (lit "a_main") (by decide) (by decide) (by decide) (by decide)

end Sample

end LogicRegression.MixVerilog
