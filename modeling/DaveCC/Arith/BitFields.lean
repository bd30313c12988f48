import Mathlib.Data.BitVec

/-!
# Fields of a word

A field is some bits of a word from an offset on. Values that are shifted to their offsets
and joined are read back, as long as no value is wider than its field.
-/

namespace DaveCC.Arith

variable {width : ℕ}

/-- The bits of a word from an offset on, as many as a field has. -/
def bitField (offset bits : ℕ) (word : BitVec width) : BitVec width :=
  word >>> offset &&& BitVec.ofNat width (2 ^ bits - 1)

@[simp] theorem getLsbD_bitField (offset bits : ℕ) (word : BitVec width) (index : ℕ) :
    (bitField offset bits word).getLsbD index =
      (decide (index < bits) && word.getLsbD (offset + index)) := by
  by_cases inside : index < width
  · rw [bitField, BitVec.getLsbD_and, BitVec.getLsbD_ushiftRight, BitVec.getLsbD_ofNat,
      Nat.testBit_two_pow_sub_one, decide_eq_true inside, Bool.true_and, Bool.and_comm]
  · rw [BitVec.getLsbD_of_ge _ _ (Nat.le_of_not_lt inside),
      BitVec.getLsbD_of_ge word _ (by omega), Bool.and_false]

/-- A field is as small as its bits, and those of the word behind its offset, allow. -/
theorem toNat_bitField_lt {offset bits most : ℕ} (covers : bits ≤ most ∨ width ≤ offset + most)
    (word : BitVec width) : (bitField offset bits word).toNat < 2 ^ most := by
  apply Nat.lt_pow_two_of_testBit
  intro index beyond
  have bit := getLsbD_bitField offset bits word index
  cases covers with
  | inl narrow =>
    rw [decide_eq_false (Nat.not_lt.mpr (narrow.trans beyond)), Bool.false_and] at bit
    exact bit
  | inr last =>
    rw [BitVec.getLsbD_of_ge word _ (last.trans (by omega)), Bool.and_false] at bit
    exact bit

theorem bitField_or (offset bits : ℕ) (left right : BitVec width) :
    bitField offset bits (left ||| right) =
      bitField offset bits left ||| bitField offset bits right := by
  apply BitVec.eq_of_getLsbD_eq
  intro index _
  simp [Bool.and_or_distrib_left]

section Shifted

variable {value : BitVec width} {offset bits start fieldBits : ℕ}

theorem getLsbD_of_small (small : value.toNat < 2 ^ bits) {index : ℕ} (beyond : bits ≤ index) :
    value.getLsbD index = false :=
  Nat.testBit_lt_two_pow (small.trans_le (Nat.pow_le_pow_right Nat.two_pos beyond))

theorem bitField_shiftLeft_self (small : value.toNat < 2 ^ fieldBits) (narrow : fieldBits ≤ bits)
    (fits : offset + fieldBits ≤ width) : bitField offset bits (value <<< offset) = value := by
  apply BitVec.eq_of_getLsbD_eq
  intro index _
  by_cases inside : index < fieldBits
  · rw [getLsbD_bitField, decide_eq_true (inside.trans_le narrow), Bool.true_and,
      BitVec.getLsbD_shiftLeft, decide_eq_true (by omega : offset + index < width),
      Nat.add_sub_cancel_left]
    simp
  · rw [getLsbD_bitField, BitVec.getLsbD_shiftLeft, Nat.add_sub_cancel_left,
      getLsbD_of_small small (Nat.le_of_not_lt inside), Bool.and_false, Bool.and_false]

theorem bitField_shiftLeft_of_below (small : value.toNat < 2 ^ fieldBits)
    (below : start + fieldBits ≤ offset) : bitField offset bits (value <<< start) = 0 := by
  apply BitVec.eq_of_getLsbD_eq
  intro index _
  simp [getLsbD_of_small small (show fieldBits ≤ offset + index - start by omega)]

theorem bitField_shiftLeft_of_above (above : offset + bits ≤ start) :
    bitField offset bits (value <<< start) = 0 := by
  apply BitVec.eq_of_getLsbD_eq
  intro index _
  by_cases inside : index < bits
  · simp [inside, show offset + index < start by omega]
  · simp [inside]

end Shifted

end DaveCC.Arith
