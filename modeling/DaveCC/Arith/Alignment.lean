import Mathlib.Data.Nat.Bitwise

/-!
# Rounding up to an alignment

A number is rounded up by adding one less than the alignment and clearing the bits of that
number. This is the least multiple of an alignment that is a power of two; for any alignment the
result is not below the number.
-/

namespace DaveCC.Arith

def clearBits (value mask : Nat) : Nat :=
  value - (value &&& mask)

/-- Rounds a number up to an alignment. -/
def alignUp (value alignment : Nat) : Nat :=
  clearBits (value + (alignment - 1)) (alignment - 1)

theorem le_alignUp (value alignment : Nat) : value ≤ alignUp value alignment := by
  have masked : (value + (alignment - 1)) &&& (alignment - 1) ≤ alignment - 1 :=
    Nat.and_le_right
  rw [alignUp, clearBits]
  omega

@[simp] theorem alignUp_zero (alignment : Nat) : alignUp 0 alignment = 0 := by
  rw [alignUp, clearBits, Nat.zero_add, Nat.and_self, Nat.sub_self]

/-- The alignments that can be rounded up to. -/
def IsAlignment (alignment : Nat) : Prop :=
  ∃ exponent, alignment = 2 ^ exponent

namespace IsAlignment

variable {alignment other value bound : Nat}

theorem one : IsAlignment 1 :=
  ⟨0, rfl⟩

theorem pos (isAlignment : IsAlignment alignment) : 0 < alignment := by
  obtain ⟨exponent, rfl⟩ := isAlignment
  exact Nat.two_pow_pos exponent

theorem max (first : IsAlignment alignment) (second : IsAlignment other) :
    IsAlignment (Nat.max alignment other) := by
  rcases Nat.le_total alignment other with smaller | larger
  · rwa [Nat.max_eq_max, Nat.max_eq_right smaller]
  · rwa [Nat.max_eq_max, Nat.max_eq_left larger]

/-- Of two alignments the smaller divides the larger. -/
theorem dvd_of_le (first : IsAlignment alignment) (second : IsAlignment other)
    (ordered : alignment ≤ other) : alignment ∣ other := by
  obtain ⟨exponent, rfl⟩ := first
  obtain ⟨otherExponent, rfl⟩ := second
  exact Nat.pow_dvd_pow 2 ((Nat.pow_le_pow_iff_right Nat.one_lt_two).mp ordered)

theorem alignUp_eq (isAlignment : IsAlignment alignment) (value : Nat) :
    alignUp value alignment = alignment * ((value + (alignment - 1)) / alignment) := by
  obtain ⟨exponent, rfl⟩ := isAlignment
  have whole := Nat.div_add_mod (value + (2 ^ exponent - 1)) (2 ^ exponent)
  rw [alignUp, clearBits, Nat.and_two_pow_sub_one_eq_mod]
  omega

theorem dvd_alignUp (isAlignment : IsAlignment alignment) (value : Nat) :
    alignment ∣ alignUp value alignment :=
  ⟨_, isAlignment.alignUp_eq value⟩

theorem alignUp_le (isAlignment : IsAlignment alignment) (below : value ≤ bound)
    (multiple : alignment ∣ bound) : alignUp value alignment ≤ bound := by
  obtain ⟨count, rfl⟩ := multiple
  have positive := isAlignment.pos
  rw [isAlignment.alignUp_eq]
  apply Nat.mul_le_mul_left
  apply Nat.le_of_lt_succ
  rw [Nat.div_lt_iff_lt_mul positive, Nat.succ_mul, Nat.mul_comm count]
  omega

/-- Rounding is monotone in the number and the alignment. -/
theorem alignUp_le_alignUp (first : IsAlignment alignment) (second : IsAlignment other)
    (ordered : alignment ≤ other) (below : value ≤ bound) :
    alignUp value alignment ≤ alignUp bound other :=
  first.alignUp_le (Nat.le_trans below (le_alignUp bound other))
    (Nat.dvd_trans (first.dvd_of_le second ordered) (second.dvd_alignUp bound))

end IsAlignment

end DaveCC.Arith
