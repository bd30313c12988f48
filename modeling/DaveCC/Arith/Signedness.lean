import Mathlib.Data.BitVec
import Mathlib.Tactic.Linarith

/-!
# When signed and unsigned word operations agree

A word's signed comparison, quotient and remainder equal the unsigned ones
exactly when the conditions of this module hold of the operands.
-/

namespace DaveCC.Arith

variable {left right : BitVec 64}

private theorem toNat_neg_of_msb {word : BitVec 64} (negative : word.msb = true) :
    (-word).toNat = 2 ^ 64 - word.toNat := by
  rw [BitVec.msb_eq_true_iff_two_mul_ge] at negative
  rw [BitVec.toNat_neg]
  omega

/-- The word size minus `value`, modulo the word size. -/
private def complement (size value : Nat) : Nat :=
  if value = 0 then 0 else size - value

private theorem toNat_neg_eq (word : BitVec 64) :
    (-word).toNat = complement (2 ^ 64) word.toNat := by
  rw [BitVec.toNat_neg, complement]
  split <;> omega

private theorem toNat_pos (nonzero : right ≠ 0) : 0 < right.toNat := by
  rw [Nat.pos_iff_ne_zero, Ne, ← BitVec.toNat_inj] at *
  simpa using nonzero

variable {size a b : Nat}

private theorem complement_div_divisor_iff (aSmall : 2 * a < size) (bBound : b < size)
    (bLarge : size ≤ 2 * b) : complement size (a / (size - b)) = a / b ↔ a + b < size := by
  have quotient : a / b = 0 := Nat.div_eq_of_lt (by omega)
  have bounded : a / (size - b) ≤ a := Nat.div_le_self _ _
  have zero_iff : a / (size - b) = 0 ↔ a < size - b := by
    rw [Nat.div_eq_zero_iff]
    omega
  rw [quotient, complement]
  split <;> omega

private theorem complement_div_dividend_iff (aBound : a < size) (aLarge : size ≤ 2 * a)
    (bPositive : 0 < b) (bSmall : 2 * b < size) :
    complement size ((size - a) / b) = a / b ↔ b = 1 := by
  have quotientPositive : 0 < a / b := Nat.div_pos (by omega) bPositive
  rw [complement]
  by_cases one : b = 1
  · subst one
    split <;> omega
  · have halved : a / b ≤ a / 2 := Nat.div_le_div_left (by omega) (by omega)
    have complementHalved : (size - a) / b ≤ (size - a) / 2 :=
      Nat.div_le_div_left (by omega) (by omega)
    split <;> omega

private theorem div_complements_iff (aBound : a < size) (bBound : b < size)
    (aLarge : size ≤ 2 * a) (bLarge : size ≤ 2 * b) : (size - a) / (size - b) = a / b ↔ a = b := by
  rcases Nat.lt_trichotomy a b with less | equal | greater
  · have quotient : a / b = 0 := Nat.div_eq_of_lt less
    have positive : 0 < (size - a) / (size - b) := Nat.div_pos (by omega) (by omega)
    omega
  · subst equal
    simp only [iff_true]
    rw [Nat.div_self (by omega), Nat.div_self (by omega)]
  · have quotient : (size - a) / (size - b) = 0 := Nat.div_eq_of_lt (by omega)
    have positive : 0 < a / b := Nat.div_pos (by omega) (by omega)
    omega

/-- Signed and unsigned division of words agree exactly when both operands are
non-negative, the divisor alone is negative but larger in size than the
dividend, the divisor is one, or the operands are equal. -/
theorem sdiv_eq_udiv_iff (nonzero : right ≠ 0) :
    left.sdiv right = left / right ↔ left.msb = false ∧ right.msb = false ∨
      left.msb = false ∧ right.msb = true ∧ left.toNat + right.toNat < 2 ^ 64 ∨
      right = 1 ∨ left = right := by
  have one_iff : right = 1 ↔ right.toNat = 1 := by
    rw [← BitVec.toNat_inj]
    rfl
  rw [BitVec.sdiv_eq, one_iff, ← BitVec.toNat_inj (x := left) (y := right)]
  cases leftSign : left.msb <;> cases rightSign : right.msb
  all_goals
    have leftBound := left.isLt
    have rightBound := right.isLt
    have leftHalf := leftSign
    have rightHalf := rightSign
    simp only [BitVec.msb_eq_true_iff_two_mul_ge, BitVec.msb_eq_false_iff_two_mul_lt,
      ge_iff_le] at leftHalf rightHalf
  · simp
  · simp only [BitVec.udiv_eq]
    rw [← BitVec.toNat_inj, toNat_neg_eq, BitVec.toNat_udiv, BitVec.toNat_udiv,
      toNat_neg_of_msb rightSign, complement_div_divisor_iff leftHalf rightBound rightHalf]
    simp only [Bool.true_eq_false, and_false, false_or, true_and]
    omega
  · simp only [BitVec.udiv_eq]
    rw [← BitVec.toNat_inj, toNat_neg_eq, BitVec.toNat_udiv, BitVec.toNat_udiv, toNat_neg_of_msb
      leftSign, complement_div_dividend_iff leftBound leftHalf (toNat_pos nonzero) rightHalf]
    simp only [Bool.true_eq_false, false_and, false_or]
    omega
  · simp only [BitVec.udiv_eq]
    rw [← BitVec.toNat_inj, BitVec.toNat_udiv, BitVec.toNat_udiv, toNat_neg_of_msb leftSign,
      toNat_neg_of_msb rightSign, div_complements_iff leftBound rightBound leftHalf rightHalf]
    simp only [Bool.true_eq_false, false_and, false_or]
    omega

private theorem mod_divisor_iff (aSmall : 2 * a < size) (bBound : b < size)
    (bLarge : size ≤ 2 * b) : a % (size - b) = a % b ↔ a + b < size := by
  have reduced : a % b = a := Nat.mod_eq_of_lt (by omega)
  have smaller : a % (size - b) < size - b := Nat.mod_lt _ (by omega)
  have unchanged : a < size - b → a % (size - b) = a := Nat.mod_eq_of_lt
  omega

private theorem complement_mod_dividend_iff (aBound : a < size) (bPositive : 0 < b)
    (bSmall : 2 * b < size) : complement size ((size - a) % b) = a % b ↔ b ∣ a ∧ b ∣ size := by
  have smaller : a % b < b := Nat.mod_lt _ bPositive
  have complementSmaller : (size - a) % b < b := Nat.mod_lt _ bPositive
  have divides_iff : b ∣ a ∧ b ∣ size ↔ a % b = 0 ∧ (size - a) % b = 0 := by
    rw [← Nat.dvd_iff_mod_eq_zero, ← Nat.dvd_iff_mod_eq_zero]
    refine and_congr_right fun divides => ?_
    rw [Nat.dvd_sub_iff_left aBound.le divides]
  rw [divides_iff, complement]
  split <;> omega

private theorem complement_mod_complements_iff (aBound : a < size) (bBound : b < size)
    (aLarge : size ≤ 2 * a) (bLarge : size ≤ 2 * b) :
    complement size ((size - a) % (size - b)) = a % b ↔ a = b := by
  rw [complement]
  rcases Nat.lt_trichotomy a b with less | equal | greater
  · have remainder : a % b = a := Nat.mod_eq_of_lt less
    have smaller : (size - a) % (size - b) < size - b := Nat.mod_lt _ (by omega)
    split <;> omega
  · subst equal
    simp
  · have remainder : (size - a) % (size - b) = size - a := Nat.mod_eq_of_lt (by omega)
    have reduced : a % b = a - b := by
      rw [Nat.mod_eq_sub_mod (by omega), Nat.mod_eq_of_lt (by omega)]
    split <;> omega

/-- Signed and unsigned remainders of words agree exactly when both operands are
non-negative, the divisor alone is negative but larger in size than the
dividend, the dividend alone is negative and both remainders vanish, or the
operands are equal. -/
theorem srem_eq_umod_iff (nonzero : right ≠ 0) :
    left.srem right = left % right ↔ left.msb = false ∧ right.msb = false ∨
      left.msb = false ∧ right.msb = true ∧ left.toNat + right.toNat < 2 ^ 64 ∨
      left.msb = true ∧ right.msb = false ∧ right.toNat ∣ left.toNat ∧ right.toNat ∣ 2 ^ 64 ∨
      left = right := by
  rw [BitVec.srem_eq, ← BitVec.toNat_inj (x := left) (y := right)]
  cases leftSign : left.msb <;> cases rightSign : right.msb
  all_goals
    have leftBound := left.isLt
    have rightBound := right.isLt
    have leftHalf := leftSign
    have rightHalf := rightSign
    simp only [BitVec.msb_eq_true_iff_two_mul_ge, BitVec.msb_eq_false_iff_two_mul_lt,
      ge_iff_le] at leftHalf rightHalf
  · simp
  · simp only []
    rw [← BitVec.toNat_inj, BitVec.toNat_umod, BitVec.toNat_umod,
      toNat_neg_of_msb rightSign, mod_divisor_iff leftHalf rightBound rightHalf]
    simp only [Bool.true_eq_false, Bool.false_eq_true, and_false, false_or, true_and, false_and]
    omega
  · simp only []
    rw [← BitVec.toNat_inj, toNat_neg_eq, BitVec.toNat_umod, BitVec.toNat_umod, toNat_neg_of_msb
      leftSign, complement_mod_dividend_iff leftBound (toNat_pos nonzero) rightHalf]
    have unequal : left.toNat ≠ right.toNat := by omega
    simp [unequal]
  · simp only []
    rw [← BitVec.toNat_inj, toNat_neg_eq, BitVec.toNat_umod, BitVec.toNat_umod,
      toNat_neg_of_msb leftSign, toNat_neg_of_msb rightSign,
      complement_mod_complements_iff leftBound rightBound leftHalf rightHalf]
    simp

/-- Signed and unsigned order agree exactly when the sign bits do. -/
theorem slt_eq_ult_iff : left.slt right = left.ult right ↔ left.msb = right.msb := by
  rw [BitVec.slt_eq_ult]
  cases left.msb <;> cases right.msb <;> cases left.ult right <;> decide

theorem sle_eq_ule_iff : left.sle right = left.ule right ↔ left.msb = right.msb := by
  rw [BitVec.sle_eq_ule]
  cases left.msb <;> cases right.msb <;> cases left.ule right <;> decide

end DaveCC.Arith
