import LogicRegression.Proof.Main.Tools
import LogicRegression.Proof.MixVerilog.Hierarchy
import LogicRegression.Proof.WriteBlif.Drivers

namespace LogicRegression.Main

open Text Structural WriteVerilog MixVerilog

variable {n m : ℕ} {io : IoNames n m}

/-- The names of the signals are plain, they keep apart from the names that the program and its tools
make up, and the suffix of the main circuit occurs in none of them. -/
structure Regular (io : IoNames n m) : Prop where
  plain : PlainNames io
  distinct : (io.names ++ wireName io.names n m).Nodup
  suffix : ∀ name ∈ io.names, ¬ lit "_main" <:+: name
  noInner : ∀ name ∈ io.names, ¬ IsInner name
  free : ∀ name ∈ io.names, name ∉ reservedWords ∧ name ∉ benchWords

section Signals

theorem endmodule_reserved : lit "endmodule" ∈ reservedWords := by decide +kernel

/-- A letter that inner names do not have. -/
theorem notInner_of_mem {name : Text} {c : Char} (inside : c ∈ name)
    (other : c ∉ lit "new_" ∧ c.isDigit = false) : ¬ IsInner name := by
  intro inner
  rcases inner.char inside with letter | digit
  · exact other.1 letter
  · rw [other.2] at digit
    cases digit

variable (regular : Regular io)
include regular

theorem Regular.signal {name : Text} (listed : name ∈ io.names) : IsSignal name where
  isName := isName_io regular.plain listed
  plain := regular.plain.plain name listed
  noInner := regular.noInner name listed
  free := (regular.free name listed).1

/-- A name stays one of the language with a suffix that ends no reserved word. -/
theorem Regular.suffixed {name suffix : Text} (listed : name ∈ io.names)
    (solid : (suffix.all fun c => c.isAlphanum || c = '_') = true) {c : Char} (inside : c ∈ suffix)
    (other : c ∉ lit "new_" ∧ c.isDigit = false)
    (free : ∀ word ∈ reservedWords, ¬ suffix <:+ word) :
    IsSignal (name ++ suffix) := by
  have nonempty : suffix ≠ [] := List.ne_nil_of_mem inside
  have plain := isPlain_suffix (io.words name listed) (regular.plain.plain name listed) solid nonempty
  have word : IsWord (name ++ suffix) := by
    refine (io.words name listed).append fun d found => ?_
    have allowed := char_of_isPlain plain (List.mem_append_right name found)
    by_contra space
    have blank : d ∈ [' ', '\t', '\n', '\x0b', '\x0c', '\r'] :=
      List.contains_iff_mem.mp (Bool.eq_true_of_not_eq_false space)
    revert allowed
    fin_cases blank <;> decide
  have unknown : name ++ suffix ∉ reservedWords := fun known => free _ known ⟨name, rfl⟩
  exact ⟨isName_of_plain word plain fun same => unknown (same ▸ endmodule_reserved), plain,
    notInner_of_mem (List.mem_append_right name inside) other, unknown⟩

theorem Regular.signal_main (k : Fin m) : IsSignal (io.output k ++ lit "_main") :=
  regular.suffixed (output_mem_names io k) (by decide) (c := 'm') (by decide) (by decide)
    (by decide +kernel)

theorem Regular.signal_wrong (k : Fin m) (b : Bool) : IsSignal (io.output k ++ wrongSuffix b) := by
  cases b
  · exact regular.suffixed (output_mem_names io k) (by decide) (c := 'r') (by decide) (by decide)
      (by decide +kernel)
  · exact regular.suffixed (output_mem_names io k) (by decide) (c := 'r') (by decide) (by decide)
      (by decide +kernel)

omit regular in
theorem isSignal_submodule (i : ℕ) (b : Bool) : IsSignal (submoduleName i b) := by
  have start : lit "submodule" <+: submoduleName i b :=
    ⟨decimal i ++ faultLabel b, by rw [submoduleName, List.append_assoc]⟩
  obtain ⟨plain, isName, -⟩ := submoduleName_plain i b
  have inside : 's' ∈ submoduleName i b := start.subset (by decide)
  have others : ∀ word ∈ reservedWords, ¬ lit "submodule" <+: word := by decide +kernel
  exact ⟨isName, plain, notInner_of_mem inside (by decide), fun known => others _ known start⟩

omit regular in
theorem isSignal_main : IsSignal (lit "main_circuit") :=
  ⟨by decide, by decide, by decide, by decide +kernel⟩

omit regular in
theorem isSignal_top : IsSignal (lit "top") := ⟨by decide, by decide, by decide, by decide +kernel⟩

end Signals

section Mappable

variable (regular : Regular io) (observed : 0 < m)
include regular

theorem inputs_signals : ∀ name ∈ io.names.take n, IsSignal name := fun _ listed =>
  regular.signal (List.mem_of_mem_take listed)

include observed in
theorem mappable_main : Mappable (lit "main_circuit") (io.names.take n)
    (List.ofFn fun k => io.output k ++ lit "_main") n m where
  title := isSignal_main
  signals := by
    rw [List.forall_mem_append, List.forall_mem_ofFn_iff]
    exact ⟨inputs_signals regular, regular.signal_main⟩
  distinct := by
    have outputs : (List.ofFn fun k : Fin m => io.output k ++ lit "_main").Nodup :=
      List.nodup_ofFn.mpr (WriteBlif.mainNet_injective io)
    refine List.nodup_append.mpr ⟨io.distinct.sublist (List.take_sublist _ _), outputs, ?_⟩
    rintro name input _ output rfl
    obtain ⟨k, rfl⟩ := List.mem_ofFn.mp output
    refine wire_notMem regular.distinct k.isLt ?_ (List.mem_of_mem_take input)
    rw [← outputName_eq]
    exact List.mem_cons_self
  width := by simp [io.size]
  depth := List.length_ofFn
  observed := observed

theorem mappable_submodule (k : Fin m) (b : Bool) : Mappable (submoduleName k b) (io.names.take n)
    [io.output k ++ wrongSuffix b] n 1 where
  title := isSignal_submodule k b
  signals := by
    rw [List.forall_mem_append, List.forall_mem_singleton]
    exact ⟨inputs_signals regular, regular.signal_wrong k b⟩
  distinct := by
    refine List.nodup_append.mpr ⟨io.distinct.sublist (List.take_sublist _ _),
      List.nodup_singleton _, ?_⟩
    rintro name input _ output rfl
    rw [List.mem_singleton] at output
    subst output
    refine wire_notMem regular.distinct k.isLt ?_ (List.mem_of_mem_take input)
    rw [← outputName_eq]
    cases b <;> simp [wireBlock, wrongSuffix]
  width := by simp [io.size]
  depth := rfl
  observed := Nat.one_pos

include observed in
theorem mappable_top : Mappable (lit "top") (List.ofFn io.input) (List.ofFn io.output) n m where
  title := isSignal_top
  signals := by
    rw [← names_eq]
    exact fun _ listed => regular.signal listed
  distinct := by
    rw [← names_eq]
    exact io.distinct
  width := List.length_ofFn
  depth := List.length_ofFn
  observed := observed

/-- A network of the optimiser for the main circuit can be renamed. -/
theorem restorable_of_maps {net : Network} {main : (Fin n → Bool) → Fin m → Bool}
    (maps : Maps net (lit "main_circuit") (io.names.take n)
      (List.ofFn fun k => io.output k ++ lit "_main") main) : Restorable io net where
  names := regular.suffix
  inputs := by rw [maps.pis, take_names]
  outputs := maps.pos
  inner := by
    intro name listed
    rcases maps.inner name listed with terminal | inner
    · rcases List.mem_append.mp terminal with input | output
      · exact .inr (regular.suffix name (List.mem_of_mem_take input))
      · exact .inl (maps.pos ▸ output)
    · refine .inr fun found => ?_
      exact notInner_of_mem (c := 'm') (found.subset (by decide)) (by decide) inner
  unused := by
    intro k listed
    have named := output_mem_names io k
    rcases maps.inner _ listed with terminal | inner
    · rcases List.mem_append.mp terminal with input | output
      · have outside : outputName io.names n k ∉ io.names.take n := output_notMem_take k.isLt
        rw [outputName_eq] at outside
        exact outside input
      · obtain ⟨l, same⟩ := List.mem_ofFn.mp output
        exact regular.suffix _ named ⟨io.output l, [], by rw [List.append_nil]; exact same⟩
    · exact regular.noInner _ named inner

end Mappable

end LogicRegression.Main
