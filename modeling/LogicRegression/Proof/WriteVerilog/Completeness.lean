import LogicRegression.Proof.WriteVerilog.Meaning

namespace LogicRegression.WriteVerilog

open Text Structural

section Ordered

/-- The value that a node gives to its net. -/
def Node.eval (node : Node) (value : Text → Bool) : Bool :=
  node.gate.function fun pin => value (node.fanins.getD pin [])

/-- Each node reads nets that are known and drives a new one. -/
def Ordered : Set Text → List Node → Prop
  | _, [] => True
  | known, node :: nodes =>
      (∀ fanin ∈ node.fanins, fanin ∈ known) ∧ node.net ∉ known ∧
        Ordered (insert node.net known) nodes

/-- The nets that some nodes drive. -/
def driven (nodes : List Node) : Set Text := { net | ∃ node ∈ nodes, net = node.net }

theorem ordered_append {known : Set Text} {first second : List Node} :
    Ordered known (first ++ second) ↔ Ordered known first ∧ Ordered (known ∪ driven first) second := by
  induction first generalizing known with
  | nil => simp [Ordered, driven]
  | cons node first ih =>
      have grown : insert node.net known ∪ driven first = known ∪ driven (node :: first) := by
        ext net
        simp [driven, or_left_comm, or_assoc]
      rw [List.cons_append, Ordered, Ordered, ih, grown, and_assoc, and_assoc]

/-- A gate does not see nets that are no pins of it. -/
theorem Node.eval_congr {node : Node} (gate : node.gate ∈ verifyLib) {first second : Text → Bool}
    (same : ∀ fanin ∈ node.fanins, first fanin = second fanin) :
    node.eval first = node.eval second := by
  apply function_congr gate
  intro pin inside
  have place : pin < node.fanins.length := by rwa [node.fits]
  rw [← List.getElem_eq_getD (h := place) []]
  exact same _ (List.getElem_mem place)

/-- The nodes can be evaluated in their order, whatever the known nets are. -/
theorem exists_consistent {known : Set Text} {nodes : List Node} (ordered : Ordered known nodes)
    (gates : ∀ node ∈ nodes, node.gate ∈ verifyLib) (start : Text → Bool) :
    ∃ value, (∀ net ∈ known, value net = start net) ∧
      ∀ node ∈ nodes, value node.net = node.eval value := by
  induction nodes generalizing known start with
  | nil => exact ⟨start, fun _ _ => rfl, fun _ listed => absurd listed List.not_mem_nil⟩
  | cons node nodes ih =>
      obtain ⟨reads, new, later⟩ := ordered
      obtain ⟨value, kept, consistent⟩ := ih later
        (fun other inside => gates other (List.mem_cons_of_mem node inside))
        (Function.update start node.net (node.eval start))
      have same : ∀ net ∈ known, value net = start net := by
        intro net listed
        have apart : net ≠ node.net := fun equal => new (equal ▸ listed)
        rw [kept net (Set.mem_insert_of_mem _ listed), Function.update_of_ne apart]
      refine ⟨value, same, List.forall_mem_cons.mpr ⟨?_, consistent⟩⟩
      rw [kept node.net (Set.mem_insert _ _), Function.update_self]
      exact node.eval_congr (gates node List.mem_cons_self) fun fanin read =>
        (same fanin (reads fanin read)).symm

/-- Each node drives its own net. -/
theorem nodup_of_ordered {known : Set Text} {nodes : List Node} (ordered : Ordered known nodes) :
    (nodes.map Node.net).Nodup ∧ ∀ node ∈ nodes, node.net ∉ known := by
  induction nodes generalizing known with
  | nil => exact ⟨List.nodup_nil, fun _ listed => absurd listed List.not_mem_nil⟩
  | cons node nodes ih =>
      obtain ⟨-, new, later⟩ := ordered
      obtain ⟨distinct, fresh⟩ := ih later
      refine ⟨List.nodup_cons.mpr ⟨fun listed => ?_, distinct⟩, List.forall_mem_cons.mpr ⟨new, ?_⟩⟩
      · obtain ⟨other, inside, same⟩ := List.mem_map.mp listed
        exact fresh other inside (same ▸ Set.mem_insert _ _)
      · exact fun other inside old => fresh other inside (Set.mem_insert_of_mem _ old)

/-- The order gives the nets ranks. -/
theorem exists_rank {known : Set Text} {nodes : List Node} (ordered : Ordered known nodes)
    (start : Text → ℕ) :
    ∃ rank : Text → ℕ, (∀ net ∈ known, rank net = start net) ∧
      ∀ node ∈ nodes, ∀ fanin ∈ node.fanins, rank fanin < rank node.net := by
  induction nodes generalizing known start with
  | nil => exact ⟨start, fun _ _ => rfl, fun _ listed => absurd listed List.not_mem_nil⟩
  | cons node nodes ih =>
      obtain ⟨reads, new, later⟩ := ordered
      obtain ⟨rank, kept, below⟩ := ih later
        (Function.update start node.net ((node.fanins.map start).sum + 1))
      have same : ∀ net ∈ known, rank net = start net := by
        intro net listed
        have apart : net ≠ node.net := fun equal => new (equal ▸ listed)
        rw [kept net (Set.mem_insert_of_mem _ listed), Function.update_of_ne apart]
      refine ⟨rank, same, List.forall_mem_cons.mpr ⟨fun fanin read => ?_, below⟩⟩
      rw [kept node.net (Set.mem_insert _ _), Function.update_self, same fanin (reads fanin read)]
      exact Nat.lt_succ_of_le (List.single_le_sum (by simp) _ (List.mem_map_of_mem read))

end Ordered

section Names

/-- The names of nets that are no terminals start in the same way and go on with digits. -/
def IsInner (name : Text) : Prop :=
  lit "new_n" <+: name ∧ ∀ c ∈ name.drop 5, c.isDigit ∨ c = '_'

instance (name : Text) : Decidable (IsInner name) := inferInstanceAs (Decidable (_ ∧ _))

def innerName (k : ℕ) : Text := lit "new_n" ++ decimal k ++ lit "_"

theorem innerName_isInner (k : ℕ) : IsInner (innerName k) := by
  refine ⟨⟨decimal k ++ lit "_", by simp [innerName]⟩, ?_⟩
  intro c inside
  have rest : (innerName k).drop 5 = decimal k ++ lit "_" := rfl
  rw [rest, List.mem_append] at inside
  rcases inside with digit | last
  · exact .inl (decimal_isDigit digit)
  · exact .inr (List.mem_singleton.mp last)

theorem innerName_inj {k l : ℕ} (same : innerName k = innerName l) : k = l :=
  (decimal_append_inj (by decide) (by decide)
    (show decimal k ++ lit "_" = decimal l ++ lit "_" from List.append_cancel_left
      (show lit "new_n" ++ (decimal k ++ lit "_") = lit "new_n" ++ (decimal l ++ lit "_") from same))).1

/-- The characters of such a name. -/
theorem IsInner.char {name : Text} (inner : IsInner name) {c : Char} (inside : c ∈ name) :
    c ∈ lit "new_" ∨ c.isDigit := by
  obtain ⟨⟨rest, rfl⟩, digits⟩ := inner
  rcases List.mem_append.mp inside with first | last
  · have all : ∀ c ∈ lit "new_n", c ∈ lit "new_" := by decide
    exact .inl (all c first)
  · rcases digits c last with digit | rfl
    · exact .inr digit
    · exact .inl (by decide)

theorem IsInner.isName {name : Text} (inner : IsInner name) : IsName name := by
  have allowed : ∀ c ∈ name, isSpace c = false ∧ isMark c = false := by
    intro c inside
    rcases inner.char inside with letter | digit
    · have all : ∀ c ∈ lit "new_", isSpace c = false ∧ isMark c = false := by decide
      exact all c letter
    · refine ⟨isSpace_of_isDigit digit, ?_⟩
      by_contra mark
      have listed : c ∈ ['(', ')', ',', ';'] :=
        List.contains_iff_mem.mp (Bool.eq_true_of_not_eq_false mark)
      revert digit
      fin_cases listed <;> decide
  refine ⟨⟨?_, fun c inside => (allowed c inside).1⟩, fun c inside => (allowed c inside).2, ?_⟩
  · rintro rfl
    exact absurd inner.1 (by decide)
  · rintro rfl
    exact absurd inner.1 (by decide)

end Names

section Build

def constantGate (bit : Bool) : MioGate := ⟨if bit then lit "one" else lit "zero", 0, fun _ => bit⟩

def bufGate : MioGate := ⟨lit "buf", 1, fun a => a 0⟩

def notGate : MioGate := ⟨lit "not", 1, fun a => !a 0⟩

def andGate : MioGate := ⟨lit "and", 2, fun a => a 0 && a 1⟩

def orGate : MioGate := ⟨lit "or", 2, fun a => a 0 || a 1⟩

theorem fits_constant (bit : Bool) : ([] : List Text).length = (constantGate bit).pins := rfl

theorem fits_not (input : Text) : [input].length = notGate.pins := rfl

theorem fits_and (first second : Text) : [first, second].length = andGate.pins := rfl

theorem fits_or (first second : Text) : [first, second].length = orGate.pins := rfl

def constantNode (net : Text) (bit : Bool) : Node :=
  ⟨constantGate bit, net, [], fits_constant bit, false⟩

def notNode (net input : Text) : Node := ⟨notGate, net, [input], fits_not input, false⟩

def andNode (net first second : Text) : Node :=
  ⟨andGate, net, [first, second], fits_and first second, false⟩

def orNode (net first second : Text) : Node :=
  ⟨orGate, net, [first, second], fits_or first second, false⟩

/-- The number of the last net for a function of some inputs. -/
def last : ℕ → ℕ
  | 0 => 0
  | count + 1 => 2 * last count + 5

/-- The nodes that select one of the two values for an input. -/
def selectNodes (input : Text) (first second k : ℕ) : List Node :=
  [notNode (innerName k) input, andNode (innerName (k + 1)) input (innerName first),
    andNode (innerName (k + 2)) (innerName k) (innerName second),
    orNode (innerName (k + 3)) (innerName (k + 1)) (innerName (k + 2))]

/-- A function is expanded by its first input; the nets are numbered from `k` on. -/
def build : List Text → (List Bool → Bool) → ℕ → List Node
  | [], g, k => [constantNode (innerName k) (g [])]
  | input :: inputs, g, k =>
      let size := last inputs.length
      build inputs (fun bits => g (true :: bits)) k ++
        (build inputs (fun bits => g (false :: bits)) (k + size + 1) ++
          selectNodes input (k + size) (k + 2 * size + 1) (k + 2 * size + 2))

theorem gate_of_mem_build {inputs : List Text} {g : List Bool → Bool} {k : ℕ} :
    ∀ node ∈ build inputs g k, node.gate ∈ verifyLib := by
  induction inputs generalizing g k with
  | nil =>
      rw [build, List.forall_mem_singleton]
      cases value : g [] <;> simp [constantNode, constantGate, verifyLib]
  | cons input inputs ih =>
      rw [build, List.forall_mem_append, List.forall_mem_append]
      refine ⟨ih, ih, ?_⟩
      simp [selectNodes, notNode, andNode, orNode, notGate, andGate, orGate, verifyLib]

theorem fanoutIsCo_build {inputs : List Text} {g : List Bool → Bool} {k : ℕ} :
    ∀ node ∈ build inputs g k, node.fanoutIsCo = false := by
  induction inputs generalizing g k with
  | nil => exact List.forall_mem_singleton.mpr rfl
  | cons input inputs ih =>
      rw [build, List.forall_mem_append, List.forall_mem_append]
      refine ⟨ih, ih, ?_⟩
      simp [selectNodes, notNode, andNode, orNode]

theorem mem_driven_build {inputs : List Text} {g : List Bool → Bool} {k : ℕ} {net : Text} :
    net ∈ driven (build inputs g k) ↔
      ∃ j, k ≤ j ∧ j ≤ k + last inputs.length ∧ net = innerName j := by
  induction inputs generalizing g k with
  | nil =>
      constructor
      · rintro ⟨node, listed, rfl⟩
        rw [build, List.mem_singleton] at listed
        exact ⟨k, le_rfl, Nat.le_add_right _ _, by rw [listed, constantNode]⟩
      · rintro ⟨j, low, high, rfl⟩
        obtain rfl : j = k := Nat.le_antisymm high low
        exact ⟨_, List.mem_singleton_self _, rfl⟩
  | cons input inputs ih =>
      have split : net ∈ driven (build (input :: inputs) g k) ↔
          net ∈ driven (build inputs (fun bits => g (true :: bits)) k) ∨
          net ∈ driven (build inputs (fun bits => g (false :: bits)) (k + last inputs.length + 1)) ∨
            ∃ i < 4, net = innerName (k + 2 * last inputs.length + 2 + i) := by
        simp only [driven, build, List.mem_append, or_and_right, exists_or, Set.mem_ofPred_eq]
        refine or_congr_right (or_congr_right ?_)
        constructor
        · rintro ⟨node, listed, rfl⟩
          simp only [selectNodes, List.mem_cons, List.not_mem_nil, or_false] at listed
          rcases listed with rfl | rfl | rfl | rfl
          · exact ⟨0, by decide, rfl⟩
          · exact ⟨1, by decide, rfl⟩
          · exact ⟨2, by decide, rfl⟩
          · exact ⟨3, by decide, rfl⟩
        · rintro ⟨i, inside, rfl⟩
          interval_cases i <;> simp [selectNodes, notNode, andNode, orNode]
      rw [split, ih, ih, List.length_cons, last]
      constructor
      · rintro (⟨j, low, high, rfl⟩ | ⟨j, low, high, rfl⟩ | ⟨i, inside, rfl⟩)
        · exact ⟨j, by omega, by omega, rfl⟩
        · exact ⟨j, by omega, by omega, rfl⟩
        · exact ⟨_, by omega, by omega, rfl⟩
      · rintro ⟨j, low, high, rfl⟩
        by_cases first : j ≤ k + last inputs.length
        · exact .inl ⟨j, low, first, rfl⟩
        · by_cases second : j ≤ k + last inputs.length + 1 + last inputs.length
          · exact .inr (.inl ⟨j, by omega, second, rfl⟩)
          · exact .inr (.inr ⟨j - (k + 2 * last inputs.length + 2), by omega, by congr 1; omega⟩)

/-- The last net has the value of the function. -/
theorem build_value {inputs : List Text} {g : List Bool → Bool} {k : ℕ} {value : Text → Bool}
    (consistent : ∀ node ∈ build inputs g k, value node.net = node.eval value) :
    value (innerName (k + last inputs.length)) = g (inputs.map value) := by
  induction inputs generalizing g k with
  | nil => exact consistent _ (List.mem_singleton_self _)
  | cons input inputs ih =>
      rw [build, List.forall_mem_append, List.forall_mem_append] at consistent
      obtain ⟨first, second, select⟩ := consistent
      have one := ih first
      have zero := ih second
      simp only [selectNodes, List.forall_mem_cons, notNode, andNode, orNode, Node.eval, notGate,
        andGate, orGate, List.getD_cons_zero, List.getD_cons_succ] at select
      obtain ⟨inverted, raised, lowered, both, -⟩ := select
      have place : k + last inputs.length + 1 + last inputs.length = k + 2 * last inputs.length + 1 := by
        omega
      rw [place] at zero
      rw [List.length_cons, last, show k + (2 * last inputs.length + 5) =
        k + 2 * last inputs.length + 2 + 3 by omega, both, raised, lowered, inverted, one, zero,
        List.map_cons]
      cases value input <;> simp

theorem ordered_selectNodes {known : Set Text} {input : Text} {first second k : ℕ}
    (own : input ∈ known) (one : innerName first ∈ known) (other : innerName second ∈ known)
    (new : ∀ j, innerName j ∈ known → j < k) :
    Ordered known (selectNodes input first second k) := by
  have fresh (i : ℕ) : innerName (k + i) ∉ known := fun listed => by
    have below := new _ listed
    omega
  have apart {i j : ℕ} (different : i ≠ j) : innerName (k + i) ≠ innerName (k + j) := fun same =>
    different (Nat.add_left_cancel (innerName_inj same))
  have start : innerName k ∉ known := fresh 0
  have later {i : ℕ} (positive : i ≠ 0) : innerName (k + i) ≠ innerName k := apart positive
  refine ⟨by simpa [notNode] using own, start, ?_, ?_, ?_, ?_, ?_, ?_, trivial⟩
  · simp [notNode, andNode, own, one]
  · simp [notNode, andNode, fresh, later]
  · simp [notNode, andNode, other]
  · simp [notNode, andNode, fresh, later, apart]
  · simp [notNode, andNode, orNode]
  · simp [notNode, andNode, orNode, fresh, later, apart]

/-- The nodes are in an order in which they can be evaluated. -/
theorem ordered_build {inputs : List Text} {g : List Bool → Bool} {k : ℕ} {known : Set Text}
    (reads : ∀ input ∈ inputs, input ∈ known) (new : ∀ j, innerName j ∈ known → j < k) :
    Ordered known (build inputs g k) := by
  induction inputs generalizing g k known with
  | nil =>
      refine ⟨fun _ listed => absurd listed List.not_mem_nil, fun listed => ?_, trivial⟩
      exact Nat.lt_irrefl k (new k listed)
  | cons input inputs ih =>
      have tail : ∀ other ∈ inputs, other ∈ known := fun other inside =>
        reads other (List.mem_cons_of_mem input inside)
      rw [build, ordered_append, ordered_append]
      refine ⟨ih tail new, ih (fun other inside => .inl (tail other inside)) ?_, ?_⟩
      · rintro j (old | driven)
        · exact (new j old).trans (by omega)
        · obtain ⟨i, -, high, same⟩ := mem_driven_build.mp driven
          rw [innerName_inj same]
          omega
      · refine ordered_selectNodes (.inl (.inl (reads input List.mem_cons_self)))
          (.inl (.inr (mem_driven_build.mpr ⟨_, by omega, by omega, rfl⟩)))
          (.inr (mem_driven_build.mpr ⟨_, by omega, by omega, rfl⟩)) ?_
        rintro j ((old | driven) | driven)
        · exact (new j old).trans (by omega)
        · obtain ⟨i, -, high, same⟩ := mem_driven_build.mp driven
          rw [innerName_inj same]
          omega
        · obtain ⟨i, -, high, same⟩ := mem_driven_build.mp driven
          rw [innerName_inj same]
          omega

/-- A net that a node reads is an input or is driven. -/
theorem fanin_of_ordered {known : Set Text} {nodes : List Node} (ordered : Ordered known nodes)
    {node : Node} (listed : node ∈ nodes) {fanin : Text} (read : fanin ∈ node.fanins) :
    fanin ∈ known ∨ fanin ∈ driven nodes := by
  induction nodes generalizing known with
  | nil => exact absurd listed List.not_mem_nil
  | cons first nodes ih =>
      obtain ⟨reads, -, later⟩ := ordered
      rcases List.mem_cons.mp listed with rfl | inside
      · exact .inl (reads fanin read)
      · rcases ih later inside with (rfl | old) | ⟨other, own, rfl⟩
        · exact .inr ⟨first, List.mem_cons_self, rfl⟩
        · exact .inl old
        · exact .inr ⟨other, List.mem_cons_of_mem first own, rfl⟩

end Build

section Outputs

/-- Each output has the nodes of its function and a buffer. -/
def blocks (inputs : List Text) : ℕ → List (Text × (List Bool → Bool)) → List Node
  | _, [] => []
  | k, (output, g) :: rest =>
      build inputs g k ++
        (⟨bufGate, output, [innerName (k + last inputs.length)], rfl, true⟩ ::
          blocks inputs (k + last inputs.length + 1) rest)

variable {inputs : List Text} {targets : List (Text × (List Bool → Bool))} {k : ℕ}

theorem gate_of_mem_blocks : ∀ node ∈ blocks inputs k targets, node.gate ∈ verifyLib := by
  induction targets generalizing k with
  | nil => exact fun _ listed => absurd listed List.not_mem_nil
  | cons target targets ih =>
      rw [blocks, List.forall_mem_append, List.forall_mem_cons]
      exact ⟨gate_of_mem_build, by simp [bufGate, verifyLib], ih⟩

theorem blocks_value {value : Text → Bool}
    (consistent : ∀ node ∈ blocks inputs k targets, value node.net = node.eval value) :
    ∀ target ∈ targets, value target.1 = target.2 (inputs.map value) := by
  induction targets generalizing k with
  | nil => exact fun _ listed => absurd listed List.not_mem_nil
  | cons target targets ih =>
      rw [blocks, List.forall_mem_append, List.forall_mem_cons] at consistent
      obtain ⟨own, buffer, rest⟩ := consistent
      exact List.forall_mem_cons.mpr ⟨buffer.trans (build_value own), ih rest⟩

theorem mem_driven_blocks {net : Text} (listed : net ∈ driven (blocks inputs k targets)) :
    net ∈ targets.map Prod.fst ∨ ∃ j, k ≤ j ∧ net = innerName j := by
  induction targets generalizing k with
  | nil =>
      obtain ⟨node, inside, -⟩ := listed
      exact absurd inside List.not_mem_nil
  | cons target targets ih =>
      obtain ⟨node, inside, rfl⟩ := listed
      rw [blocks, List.mem_append, List.mem_cons] at inside
      rcases inside with own | rfl | rest
      · obtain ⟨j, low, -, same⟩ := mem_driven_build.mp ⟨node, own, rfl⟩
        exact .inr ⟨j, low, same⟩
      · exact .inl List.mem_cons_self
      · rcases ih ⟨node, rest, rfl⟩ with output | ⟨j, low, same⟩
        · exact .inl (List.mem_cons_of_mem _ output)
        · exact .inr ⟨j, by omega, same⟩

theorem ordered_blocks {known : Set Text} (reads : ∀ input ∈ inputs, input ∈ known)
    (new : ∀ j, innerName j ∈ known → j < k) (distinct : (targets.map Prod.fst).Nodup)
    (fresh : ∀ output ∈ targets.map Prod.fst, output ∉ known ∧ ¬ IsInner output) :
    Ordered known (blocks inputs k targets) := by
  induction targets generalizing k known with
  | nil => trivial
  | cons target targets ih =>
      rw [List.map_cons, List.nodup_cons] at distinct
      rw [List.map_cons, List.forall_mem_cons] at fresh
      obtain ⟨⟨unknown, noInner⟩, later⟩ := fresh
      have noDriven {output : Text} (other : ¬ IsInner output) :
          output ∉ driven (build inputs target.2 k) := fun listed => by
        obtain ⟨j, -, -, rfl⟩ := mem_driven_build.mp listed
        exact other (innerName_isInner j)
      rw [blocks, ordered_append]
      refine ⟨ordered_build reads new, ?_, ?_, ih ?_ ?_ distinct.2 ?_⟩
      · rw [List.forall_mem_singleton]
        exact .inr (mem_driven_build.mpr ⟨_, Nat.le_add_right _ _, le_rfl, rfl⟩)
      · exact fun listed => listed.elim unknown (noDriven noInner)
      · exact fun input inside => .inr (.inl (reads input inside))
      · rintro j (same | old | driven)
        · have inner := innerName_isInner j
          rw [same] at inner
          exact absurd inner noInner
        · exact (new j old).trans (by omega)
        · obtain ⟨i, -, high, same⟩ := mem_driven_build.mp driven
          rw [innerName_inj same]
          omega
      · intro output inside
        refine ⟨?_, (later output inside).2⟩
        rintro (rfl | old | driven)
        · exact distinct.1 inside
        · exact (later output inside).1 old
        · exact noDriven (later output inside).2 driven

/-- The flags of the nodes tell the outputs. -/
theorem blocks_flags (noInner : ∀ target ∈ targets, ¬ IsInner target.1) :
    ∀ node ∈ blocks inputs k targets,
      (node.fanoutIsCo = true ∧ node.net ∈ targets.map Prod.fst) ∨
        (node.fanoutIsCo = false ∧ IsInner node.net) := by
  induction targets generalizing k with
  | nil => exact fun _ listed => absurd listed List.not_mem_nil
  | cons target targets ih =>
      rw [blocks, List.forall_mem_append, List.forall_mem_cons]
      refine ⟨fun node listed => .inr ⟨fanoutIsCo_build node listed, ?_⟩, .inl ⟨rfl, List.mem_cons_self⟩,
        fun node listed => ?_⟩
      · obtain ⟨j, -, -, same⟩ := mem_driven_build.mp ⟨node, listed, rfl⟩
        rw [same]
        exact innerName_isInner j
      · rcases ih (fun other inside => noInner other (List.mem_cons_of_mem target inside)) node listed
          with ⟨flag, output⟩ | inner
        · exact .inl ⟨flag, List.mem_cons_of_mem _ output⟩
        · exact .inr inner

theorem outputs_driven : targets.map Prod.fst ⊆ (blocks inputs k targets).map Node.net := by
  induction targets generalizing k with
  | nil => exact List.nil_subset _
  | cons target targets ih =>
      rw [blocks, List.map_append, List.map_cons, List.map_cons]
      refine List.cons_subset.mpr ⟨List.mem_append_right _ List.mem_cons_self, fun output listed => ?_⟩
      exact List.mem_append_right _ (List.mem_cons_of_mem _ (ih listed))

end Outputs

section Network

/-- A function of lists of bits gives each output its function. -/
def targetsOf (outputs : List Text) (g : List Bool → List Bool) : List (Text × (List Bool → Bool)) :=
  outputs.zipIdx.map fun item => (item.1, fun bits => (g bits).getD item.2 false)

/-- A mapped network for a function. -/
def networkOf (name : Text) (inputs outputs : List Text) (g : List Bool → List Bool) : Network where
  name := name
  library := verifyLib
  pis := inputs
  pos := outputs
  nodes := blocks inputs 0 (targetsOf outputs g)

theorem targetsOf_fst {outputs : List Text} {g : List Bool → List Bool} :
    (targetsOf outputs g).map Prod.fst = outputs := by
  rw [targetsOf, List.map_map]
  exact List.zipIdx_map_fst 0 outputs

/-- Nets with the values of their functions have the bits of the function. -/
theorem targets_value {outputs : List Text} {g : List Bool → List Bool} {bits : List Bool} {m : ℕ}
    (depth : outputs.length = m) {value : Text → Bool}
    (values : ∀ target ∈ targetsOf outputs g, value target.1 = target.2 bits)
    (size : (g bits).length = m) : outputs.map value = g bits := by
  apply List.ext_getElem
  · rw [List.length_map, depth, size]
  · intro i left right
    have inside : i < outputs.length := by simpa using left
    have listed : (outputs[i], i) ∈ outputs.zipIdx := by
      rw [List.mem_zipIdx_iff_getElem?]
      exact List.getElem?_eq_getElem inside
    rw [List.getElem_map, List.getElem_eq_getD false]
    exact values _ (List.mem_map_of_mem listed)

/-- The bits of the outputs for the bits of the inputs. -/
def bitsOf {n m : ℕ} (f : (Fin n → Bool) → Fin m → Bool) (bits : List Bool) : List Bool :=
  List.ofFn (f fun j => bits.getD j false)

theorem bitsOf_ofFn {n m : ℕ} (f : (Fin n → Bool) → Fin m → Bool) (x : Fin n → Bool) :
    bitsOf f (List.ofFn x) = List.ofFn (f x) := by
  have same : (fun j : Fin n => (List.ofFn x).getD j false) = x := by
    funext j
    simp
  rw [bitsOf, same]

/-- Every function has a mapped network: it is well formed and computes the function, and all its nets
but the terminals have inner names. -/
theorem networkOf_realizes {name : Text} {inputs outputs : List Text} {g : List Bool → List Bool}
    {n m : ℕ} {f : (Fin n → Bool) → Fin m → Bool} (isName : IsName name)
    (names : ∀ net ∈ inputs ++ outputs, IsName net ∧ ¬ IsInner net)
    (distinct : (inputs ++ outputs).Nodup) (observed : outputs ≠ []) (width : inputs.length = n)
    (same : ∀ x, g (List.ofFn x) = List.ofFn (f x)) (depth : outputs.length = m) :
    (networkOf name inputs outputs g).Realizes name f ∧ (networkOf name inputs outputs g).WellFormed ∧
      ∀ net ∈ (networkOf name inputs outputs g).nets, net ∈ inputs ++ outputs ∨ IsInner net := by
  obtain ⟨-, outputsDistinct, apart⟩ := List.nodup_append.mp distinct
  have fresh : ∀ output ∈ (targetsOf outputs g).map Prod.fst,
      output ∉ { net | net ∈ inputs } ∧ ¬ IsInner output := by
    rw [targetsOf_fst]
    exact fun output listed => ⟨fun inside => apart output inside output listed rfl,
      (names output (List.mem_append_right _ listed)).2⟩
  have ordered : Ordered { net | net ∈ inputs } (blocks inputs 0 (targetsOf outputs g)) := by
    refine ordered_blocks (fun _ inside => inside) (fun j listed => ?_)
      (by rwa [targetsOf_fst]) fresh
    exact absurd (innerName_isInner j) (names _ (List.mem_append_left _ listed)).2
  have nets : ∀ net ∈ (networkOf name inputs outputs g).nets,
      net ∈ inputs ++ outputs ∨ IsInner net := by
    have known {net : Text} (listed : net ∈ driven (blocks inputs 0 (targetsOf outputs g))) :
        net ∈ inputs ++ outputs ∨ IsInner net := by
      rcases mem_driven_blocks listed with output | ⟨j, -, rfl⟩
      · rw [targetsOf_fst] at output
        exact .inl (List.mem_append_right _ output)
      · exact .inr (innerName_isInner j)
    intro net listed
    rcases List.mem_append.mp listed with input | listed
    · exact .inl (List.mem_append_left _ input)
    · rcases List.mem_append.mp listed with output | inner
      · exact .inl (List.mem_append_right _ output)
      · obtain ⟨node, inside, own⟩ := List.mem_flatMap.mp inner
        rcases List.mem_cons.mp own with rfl | read
        · exact known ⟨node, inside, rfl⟩
        · rcases fanin_of_ordered ordered inside read with input | driven
          · exact .inl (List.mem_append_left _ input)
          · exact known driven
  have wellFormed : (networkOf name inputs outputs g).WellFormed := {
    terminals := distinct
    single := by
      obtain ⟨single, new⟩ := nodup_of_ordered ordered
      refine List.nodup_append.mpr ⟨(List.nodup_append.mp distinct).1, single, ?_⟩
      rintro input inside driven listed rfl
      obtain ⟨node, own, rfl⟩ := List.mem_map.mp listed
      exact new node own inside
    driven := by
      have all := @outputs_driven inputs (targetsOf outputs g) 0
      rw [targetsOf_fst] at all
      exact fun po listed => all listed
    closed := by
      intro node listed fanin read
      rcases fanin_of_ordered ordered listed read with input | ⟨other, inside, rfl⟩
      · exact List.mem_append_left _ input
      · exact List.mem_append_right _ (List.mem_map_of_mem inside)
    flags := by
      have noInner : ∀ target ∈ targetsOf outputs g, ¬ IsInner target.1 := fun target listed =>
        (fresh target.1 (List.mem_map_of_mem listed)).2
      intro node listed
      rcases blocks_flags noInner node listed with ⟨flag, output⟩ | ⟨flag, inner⟩
      · rw [targetsOf_fst] at output
        exact iff_of_true flag output
      · exact iff_of_false (by simp [flag]) fun output =>
          (names _ (List.mem_append_right _ output)).2 inner
    acyclic := by
      obtain ⟨rank, -, below⟩ := exists_rank ordered fun _ => 0
      exact ⟨rank, below⟩ }
  refine ⟨⟨⟨isName, fun net listed => ?_, observed, ?_, rfl, gate_of_mem_blocks⟩, rfl, ?_⟩, wellFormed,
    nets⟩
  · rcases nets net listed with terminal | inner
    · exact (names net terminal).1
    · exact inner.isName
  · exact fun output listed input => apart output input output listed rfl
  · intro pins
    constructor
    · rintro ⟨value, consistent, rfl⟩
      refine ⟨fun j => value (inputs.get (j.cast width.symm)), ?_⟩
      have ins : inputs.map value = List.ofFn fun j => value (inputs.get (j.cast width.symm)) := by
        apply List.ext_getElem
        · simp [width]
        · intro j left right
          simp
      have outs := targets_value depth (blocks_value consistent)
      rw [ins, same] at outs
      rw [List.map_append]
      exact congrArg₂ (· ++ ·) ins (outs (by simp))
    · rintro ⟨x, rfl⟩
      obtain ⟨start, ins⟩ := exists_value (List.nodup_append.mp distinct).1
        (show (List.ofFn x).length = inputs.length by simp [width])
      obtain ⟨value, kept, consistent⟩ := exists_consistent ordered gate_of_mem_blocks start
      have own : inputs.map value = List.ofFn x := by
        rw [← ins]
        exact List.map_congr_left kept
      refine ⟨value, consistent, ?_⟩
      have outs := targets_value depth (blocks_value consistent)
      rw [own, same] at outs
      change _ = (inputs ++ outputs).map value
      rw [List.map_append, own, outs (by simp)]

end Network

end LogicRegression.WriteVerilog
