import LogicRegression.Library.Text
import Mathlib.Data.Nat.Digits.Defs
import Mathlib.Data.Nat.Bitwise

namespace LogicRegression.Binary

/-- The conversion of a wider integer to a 32-bit `int`. -/
def toInt (value : ℤ) : ℤ := value.bmod (2 ^ 32)

/-- A number that fits is not changed. -/
theorem toInt_of_lt {value : ℕ} (fits : value < 2 ^ 31) : toInt value = value := by
  apply Int.bmod_eq_of_le
  · omega
  · omega

/-- This is the character of one bit. -/
def bitChar (bit : Bool) : Char := if bit then '1' else '0'

/-- A bit string has only the characters `0` and `1`. -/
def IsBits (text : Text) : Prop := ∀ c ∈ text, c = '0' ∨ c = '1'

instance (text : Text) : Decidable (IsBits text) :=
  inferInstanceAs (Decidable (∀ c ∈ text, _))

@[simp] theorem isBits_nil : IsBits [] := by simp [IsBits]

@[simp] theorem isBits_cons {c : Char} {text : Text} :
    IsBits (c :: text) ↔ (c = '0' ∨ c = '1') ∧ IsBits text := by simp [IsBits]

@[simp] theorem isBits_append {first second : Text} :
    IsBits (first ++ second) ↔ IsBits first ∧ IsBits second := by
  simp only [IsBits, List.mem_append]
  exact ⟨fun all => ⟨fun c inside => all c (.inl inside), fun c inside => all c (.inr inside)⟩,
    fun both c => Or.rec (both.1 c) (both.2 c)⟩

theorem bitChar_isBit (bit : Bool) : bitChar bit = '0' ∨ bitChar bit = '1' := by
  cases bit <;> simp [bitChar]

theorem bitChar_injective : Function.Injective bitChar := by
  intro first second equal
  cases first <;> cases second <;> simp_all [bitChar]

@[simp] theorem bitChar_inj {first second : Bool} : bitChar first = bitChar second ↔ first = second :=
  bitChar_injective.eq_iff

theorem exists_bitChar {c : Char} (bit : c = '0' ∨ c = '1') : ∃ b, c = bitChar b := by
  rcases bit with rfl | rfl
  · exact ⟨false, rfl⟩
  · exact ⟨true, rfl⟩

/-- The loop puts one binary digit in front of the text for each halving. -/
def numeralLoop : ℕ → ℕ → Text → Text
  | 0, _, text => text
  | fuel + 1, n, text =>
      if n = 0 then text
      else numeralLoop fuel (n / 2) ((if n % 2 = 0 then '0' else '1') :: text)

/-- The loop halves at most `n` times; the numeral of zero is empty. -/
def numeral (n : ℕ) : Text := numeralLoop n n []

/-- This is the numeral with leading zeros up to a width. -/
def padded (width n : ℕ) : Text := (numeral n).leftpad width '0'

/-- The fixed-width numeral has the highest bit first. -/
def bits (width n : ℕ) : Text := (List.range width).reverse.map fun i => bitChar (n.testBit i)

@[simp] theorem bits_length (width n : ℕ) : (bits width n).length = width := by simp [bits]

theorem bits_isBits (width n : ℕ) : IsBits (bits width n) := by
  intro c inside
  obtain ⟨i, _, rfl⟩ := List.mem_map.mp inside
  exact bitChar_isBit _

/-- The last character of a fixed-width numeral is the parity. -/
theorem bits_succ (width n : ℕ) :
    bits (width + 1) n = bits width (n / 2) ++ [bitChar (n.testBit 0)] := by
  simp [bits, List.range_succ_eq_map, Function.comp_def, Nat.testBit_succ]

/-- A fixed-width numeral has its bits in reverse order. -/
theorem bits_getElem? {width n i : ℕ} (inside : i < width) :
    (bits width n)[width - 1 - i]? = some (bitChar (n.testBit i)) := by
  have low : width - 1 - i < width := by omega
  have back : width - 1 - (width - 1 - i) = i := by omega
  simp [bits, low, back]

/-- The loop needs at most `n` halvings, and it writes the digits in reverse order. -/
theorem numeralLoop_eq (fuel n : ℕ) (text : Text) (enough : n ≤ fuel) :
    numeralLoop fuel n text =
      ((Nat.digits 2 n).map fun d => if d = 0 then '0' else '1').reverse ++ text := by
  induction fuel generalizing n text with
  | zero => simp [numeralLoop, Nat.le_zero.mp enough]
  | succ fuel ih =>
      by_cases zero : n = 0
      · simp [numeralLoop, zero]
      · have digits := Nat.digits_def' (b := 2) (by decide) (Nat.pos_of_ne_zero zero)
        rw [numeralLoop, if_neg zero, ih (n / 2) _ (by omega), digits]
        simp

theorem numeral_eq (n : ℕ) :
    numeral n = ((Nat.digits 2 n).map fun d => if d = 0 then '0' else '1').reverse := by
  rw [numeral, numeralLoop_eq n n [] le_rfl, List.append_nil]

/-- A positive number ends with its parity. -/
theorem numeral_of_pos {n : ℕ} (positive : 0 < n) :
    numeral n = numeral (n / 2) ++ [bitChar (n.testBit 0)] := by
  rw [numeral_eq, numeral_eq, Nat.digits_def' (by decide) positive]
  rcases Nat.mod_two_eq_zero_or_one n with parity | parity <;>
    simp [bitChar, Nat.testBit_zero, parity]

/-- The padded numeral is the fixed-width numeral of each number that fits. -/
theorem padded_eq_bits {width n : ℕ} (fits : n < 2 ^ width) : padded width n = bits width n := by
  induction width generalizing n with
  | zero =>
      have zero : n = 0 := by simpa using fits
      subst zero
      rfl
  | succ width ih =>
      have half : n / 2 < 2 ^ width := by rw [pow_succ] at fits; omega
      rw [bits_succ, ← ih half]
      rcases Nat.eq_zero_or_pos n with rfl | positive
      · simp [padded, numeral, numeralLoop, List.leftpad, bitChar, List.replicate_succ']
      · have short : width + 1 - (numeral (n / 2) ++ [bitChar (n.testBit 0)]).length =
            width - (numeral (n / 2)).length := by
          simp only [List.length_append, List.length_singleton]
          omega
        simp only [padded, List.leftpad, numeral_of_pos positive, short, List.append_assoc]

/-- Each bit string is the fixed-width numeral of a number that fits. -/
theorem exists_bits {text : Text} (isBits : IsBits text) :
    ∃ n < 2 ^ text.length, bits text.length n = text := by
  induction text using List.reverseRecOn with
  | nil => exact ⟨0, by decide, rfl⟩
  | append_singleton text c ih =>
      rw [isBits_append, isBits_cons] at isBits
      obtain ⟨n, fits, same⟩ := ih isBits.1
      obtain ⟨b, rfl⟩ := exists_bitChar isBits.2.1
      refine ⟨Nat.bit b n, ?_, ?_⟩
      · rw [List.length_append, List.length_singleton, pow_succ, Nat.bit_val]
        cases b <;> simp <;> omega
      · rw [List.length_append, List.length_singleton, bits_succ, Nat.bit_div_two, same,
          Nat.testBit_bit_zero]

end LogicRegression.Binary
