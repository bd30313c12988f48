import Mathlib.Tactic.Linarith
import Mathlib.Tactic.Ring
import Mathlib.Data.BitVec

/-!
# Division by multiplication

A quotient by a fixed divisor `d` is a product with a multiplier and a division by
a power. The multiplier times `d` exceeds the power by `excess`. The result is the
quotient of every dividend below `last + d` when `last` is one less than a multiple
of `d` and its product with `excess` stays below the power.
-/

namespace DaveCC.Arith

/-- The quotient of twice a number and a bit. -/
theorem double_div {m : ℕ} (positive : 0 < m) (number bit : ℕ) (isBit : bit ≤ 1) :
    (2 * number + bit) / m =
      if m ≤ 2 * (number % m) + bit then 2 * (number / m) + 1 else 2 * (number / m) := by
  have remainder : number % m < m := Nat.mod_lt _ positive
  have split : 2 * number + bit = 2 * (number % m) + bit + m * (2 * (number / m)) := by
    conv => lhs; rw [← Nat.div_add_mod number m]
    ring
  rw [split, Nat.add_mul_div_left _ _ positive]
  split
  · have one : (2 * (number % m) + bit) / m = 1 := by
      apply Nat.div_eq_of_lt_le <;> omega
    omega
  · rw [Nat.div_eq_of_lt (by omega), Nat.zero_add]

/-- The remainder of twice a number and a bit. -/
theorem double_mod {m : ℕ} (positive : 0 < m) (number bit : ℕ) (isBit : bit ≤ 1) :
    (2 * number + bit) % m = if m ≤ 2 * (number % m) + bit then 2 * (number % m) + bit - m
      else 2 * (number % m) + bit := by
  have remainder : number % m < m := Nat.mod_lt _ positive
  have split : 2 * number + bit = 2 * (number % m) + bit + m * (2 * (number / m)) := by
    conv => lhs; rw [← Nat.div_add_mod number m]
    ring
  rw [split, Nat.add_mul_mod_self_left]
  split
  · rw [Nat.mod_eq_sub_mod (by omega), Nat.mod_eq_of_lt (by omega)]
  · exact Nat.mod_eq_of_lt (by omega)

variable {d last excess multiplier power : ℕ}

variable {n : ℕ}

/-- What a dividend contributes to the error stays below what its remainder leaves. -/
theorem mul_excess_lt (positive : 0 < d) (divides : d ∣ last + 1) (small : last * excess < power)
    (below : n < last + d) : n * excess < (d - n % d) * power := by
  have remainder : n % d < d := Nat.mod_lt _ positive
  cases Nat.lt_or_ge last n with
  | inr within =>
    calc n * excess ≤ last * excess := Nat.mul_le_mul_right _ within
      _ < power := small
      _ ≤ (d - n % d) * power := Nat.le_mul_of_pos_left _ (by omega)
  | inl beyond =>
    have remainder_eq : n % d = n - (last + 1) := by
      rcases divides with ⟨times, multiple⟩
      have split : n = n - (last + 1) + d * times := by omega
      conv => lhs; rw [split]
      rw [Nat.add_mul_mod_self_left, Nat.mod_eq_of_lt (by omega)]
    have least : d ≤ last + 1 := Nat.le_of_dvd (by omega) divides
    have rest : (n - last) * excess ≤ last * excess :=
      Nat.mul_le_mul_right _ (by omega)
    have parts : n * excess = last * excess + (n - last) * excess := by
      rw [← Nat.add_mul]
      congr 1
      omega
    have two : 2 * power ≤ (d - n % d) * power :=
      Nat.mul_le_mul_right _ (by omega)
    omega

/-- The quotient of a dividend that is not negative. -/
theorem mul_div_eq_div (positive : 0 < d) (divides : d ∣ last + 1)
    (exceeds : multiplier * d = power + excess) (small : last * excess < power)
    (below : n < last + d) : n * multiplier / power = n / d := by
  have error := mul_excess_lt positive divides small below
  have remainder : n % d < d := Nat.mod_lt _ positive
  have product : n * multiplier * d = n * power + n * excess := by
    rw [Nat.mul_assoc, exceeds, Nat.mul_add]
  have dividend : n * power = n / d * power * d + n % d * power := by
    conv => lhs; rw [← Nat.div_add_mod n d]
    ring
  have rest : (d - n % d) * power + n % d * power = power * d := by
    rw [← Nat.add_mul, Nat.sub_add_cancel remainder.le, Nat.mul_comm]
  apply Nat.div_eq_of_lt_le
  · apply Nat.le_of_mul_le_mul_right _ positive
    omega
  · apply Nat.lt_of_mul_lt_mul_right (a := d)
    rw [Nat.add_mul, Nat.add_mul, Nat.one_mul]
    omega

/-- The quotient of a negative dividend, rounded down, is one below the quotient
rounded toward zero. The dividend of the largest size has a remainder of its own. -/
theorem neg_mul_ediv_eq (positive : 0 < d) (divides : d ∣ last + 1)
    (exceeds : multiplier * d = power + excess) (small : last * excess < power)
    (some_excess : 0 < excess) (nonzero : 0 < n)
    (below : n < last + d ∨ n = last + d ∧ n * excess ≤ power) :
    -((n * multiplier : ℕ) : ℤ) / power = -((n / d : ℕ) : ℤ) - 1 := by
  have remainder : n % d < d := Nat.mod_lt _ positive
  have error : n * excess ≤ (d - n % d) * power := by
    cases below with
    | inl below => exact (mul_excess_lt positive divides small below).le
    | inr largest =>
      exact Nat.le_trans largest.2 (Nat.le_mul_of_pos_left _ (by omega))
  have powerPositive : 0 < power := by omega
  have product : n * multiplier * d = n * power + n * excess := by
    rw [Nat.mul_assoc, exceeds, Nat.mul_add]
  have dividend : n * power = n / d * power * d + n % d * power := by
    conv => lhs; rw [← Nat.div_add_mod n d]
    ring
  have rest : (d - n % d) * power + n % d * power = power * d := by
    rw [← Nat.add_mul, Nat.sub_add_cancel remainder.le, Nat.mul_comm]
  have added : 0 < n * excess := Nat.mul_pos nonzero some_excess
  have above : n / d * power < n * multiplier := by
    apply Nat.lt_of_mul_lt_mul_right (a := d)
    omega
  have within : n * multiplier ≤ (n / d + 1) * power := by
    apply Nat.le_of_mul_le_mul_right _ positive
    rw [Nat.add_mul, Nat.add_mul, Nat.one_mul]
    omega
  have least : ((n / d : ℕ) : ℤ) * power < (n * multiplier : ℕ) := by exact_mod_cast above
  have most : ((n * multiplier : ℕ) : ℤ) ≤ ((n / d : ℕ) + 1) * power := by
    exact_mod_cast within
  apply le_antisymm
  · apply Int.le_of_lt_add_one
    apply Int.ediv_lt_of_lt_mul (by exact_mod_cast powerPositive)
    linarith
  · apply Int.le_ediv_of_mul_le (by exact_mod_cast powerPositive)
    linarith

end DaveCC.Arith

/-!
## Two divisions as one

A quotient divided again is the quotient by the product. At a fixed width the
product wraps, and the smallest number divided by minus one stays as it is. The
two divisions are still one exactly when neither shows.
-/

namespace DaveCC.Arith

/-- Rounding toward zero twice is rounding once. -/
theorem tdiv_tdiv (x a b : ℤ) : (x.tdiv a).tdiv b = x.tdiv (a * b) := by
  rcases x.eq_nat_or_neg with ⟨n, rfl | rfl⟩ <;> rcases a.eq_nat_or_neg with ⟨m, rfl | rfl⟩ <;>
    rcases b.eq_nat_or_neg with ⟨k, rfl | rfl⟩ <;>
    simp only [Int.neg_tdiv, Int.tdiv_neg, Int.neg_mul, Int.mul_neg, Int.neg_neg,
      ← Int.ofNat_tdiv, Nat.div_div_eq_div_mul, ← Int.natCast_mul]

section Unsigned

variable {width : ℕ} {a b : BitVec width}

/-- Both divisions have a value for the same dividends, and it is the same. -/
theorem udiv_udiv_iff (nonzero : a ≠ 0) (nonzero' : b ≠ 0) :
    (∀ x : BitVec width, a * b ≠ 0 ∧ x / a / b = x / (a * b)) ↔
      a.toNat * b.toNat < 2 ^ width := by
  have positive : 0 < a.toNat := Nat.pos_of_ne_zero fun zero => nonzero (BitVec.eq_of_toNat_eq zero)
  have positive' : 0 < b.toNat :=
    Nat.pos_of_ne_zero fun zero => nonzero' (BitVec.eq_of_toNat_eq zero)
  constructor
  · intro same
    by_contra large
    have chain : (a * b) / a / b = 0 := by
      apply BitVec.eq_of_toNat_eq
      rw [BitVec.toNat_udiv, BitVec.toNat_udiv, Nat.div_div_eq_div_mul]
      exact Nat.div_eq_of_lt (Nat.lt_of_lt_of_le (a * b).isLt (Nat.le_of_not_lt large))
    have whole : 0 < (a * b).toNat :=
      Nat.pos_of_ne_zero fun zero => (same 0).1 (BitVec.eq_of_toNat_eq zero)
    have one : (a * b) / (a * b) ≠ 0 := by
      intro zero
      have quotient := congrArg BitVec.toNat zero
      rw [BitVec.toNat_udiv, Nat.div_self whole] at quotient
      exact absurd quotient Nat.one_ne_zero
    exact one ((same (a * b)).2.symm.trans chain)
  · intro small x
    have product : (a * b).toNat = a.toNat * b.toNat := by
      rw [BitVec.toNat_mul, Nat.mod_eq_of_lt small]
    refine ⟨fun zero => ?_, ?_⟩
    · rw [zero] at product
      exact absurd product (Nat.mul_pos positive positive').ne
    · apply BitVec.eq_of_toNat_eq
      rw [BitVec.toNat_udiv, BitVec.toNat_udiv, BitVec.toNat_udiv, product, Nat.div_div_eq_div_mul]

end Unsigned

/-! ## Signed numbers of a width -/

/-- The two divisions by these divisors are one. -/
def SignedDivisorsCombine (width : ℕ) (a b : ℤ) : Prop :=
  if a = -1 then b = 1 ∨ b = -1 ∨ b = -2 ^ (width - 1)
  else -2 ^ (width - 1) ≤ a * b ∧ a * b < 2 ^ (width - 1)

instance (width : ℕ) (a b : ℤ) : Decidable (SignedDivisorsCombine width a b) :=
  inferInstanceAs (Decidable (ite _ _ _))

section Signed

variable {width : ℕ} (wide : 2 ≤ width)

include wide

theorem one_ne_intMin : (BitVec.ofNat width 1) ≠ BitVec.intMin width := by
  intro same
  have numbers := congrArg BitVec.toInt same
  have power : (0 : ℤ) < 2 ^ (width - 1) := by positivity
  rw [BitVec.toInt_one wide, BitVec.toInt_intMin_of_pos (by omega)] at numbers
  omega

theorem toInt_neg_one : (-BitVec.ofNat width 1).toInt = -1 := by
  rw [BitVec.toInt_neg_of_ne_intMin (one_ne_intMin wide), BitVec.toInt_one wide]

theorem eq_neg_one_iff {a : BitVec width} : a = -BitVec.ofNat width 1 ↔ a.toInt = -1 := by
  rw [← toInt_neg_one wide, BitVec.toInt_inj]

theorem eq_one_iff {a : BitVec width} : a = BitVec.ofNat width 1 ↔ a.toInt = 1 := by
  rw [← BitVec.toInt_one wide, BitVec.toInt_inj]

theorem eq_intMin_iff {a : BitVec width} :
    a = BitVec.intMin width ↔ a.toInt = -2 ^ (width - 1) := by
  rw [← BitVec.toInt_intMin_of_pos (by omega), BitVec.toInt_inj]

theorem sdiv_neg_one (x : BitVec width) : x.sdiv (-BitVec.ofNat width 1) = -x := by
  rw [BitVec.sdiv_neg (one_ne_intMin wide), BitVec.sdiv_one]

theorem natAbs_intMin_sdiv {b : BitVec width} (inner : b.toInt ≠ -1) :
    ((BitVec.intMin width).sdiv b).toInt.natAbs = 2 ^ (width - 1) / b.toInt.natAbs := by
  rw [BitVec.toInt_sdiv_of_ne_or_ne _ _ (.inr (mt (eq_neg_one_iff wide).mp inner)),
    BitVec.toInt_intMin_of_pos (by omega), Int.natAbs_tdiv, Int.natAbs_neg]
  norm_cast

/-- The negated number divided is the number divided by the negated divisor, unless the
least number shows its wrapping. -/
theorem neg_sdiv_iff {b : BitVec width} (nonzero : b ≠ 0) :
    (∀ x : BitVec width, (-x).sdiv b = x.sdiv (-b)) ↔
      b.toInt = 1 ∨ b.toInt = -1 ∨ b.toInt = -2 ^ (width - 1) := by
  constructor
  · intro same
    by_contra other
    rw [not_or, not_or] at other
    have least : b ≠ BitVec.intMin width := mt (eq_intMin_iff wide).mp other.2.2
    have quotient := same (BitVec.intMin width)
    rw [BitVec.neg_intMin, BitVec.sdiv_neg least] at quotient
    have size := natAbs_intMin_sdiv wide other.2.1
    have positive : b.toInt ≠ 0 := fun zero => nonzero (BitVec.eq_of_toInt_eq (by simpa using zero))
    have large : 2 ≤ b.toInt.natAbs := by omega
    have within : b.toInt.natAbs ≤ 2 ^ (width - 1) := by
      have atLeast := BitVec.le_toInt b
      have below := BitVec.toInt_lt (x := b)
      have power : ((2 ^ (width - 1) : ℕ) : ℤ) = 2 ^ (width - 1) := by norm_cast
      omega
    have some_size : 0 < ((BitVec.intMin width).sdiv b).toInt.natAbs := by
      rw [size]
      exact Nat.div_pos within (by omega)
    have half : ((BitVec.intMin width).sdiv b).toInt.natAbs < 2 ^ (width - 1) := by
      rw [size]
      exact Nat.div_lt_self (Nat.two_pow_pos _) large
    have inner : (BitVec.intMin width).sdiv b ≠ BitVec.intMin width := by
      intro same
      rw [same, BitVec.toInt_intMin_of_pos (by omega), Int.natAbs_neg] at half
      norm_cast at half
      exact absurd half (lt_irrefl _)
    have negated := congrArg BitVec.toInt quotient
    rw [BitVec.toInt_neg_of_ne_intMin inner] at negated
    omega
  · intro cases x
    rcases cases with one | minusOne | least
    · rw [(eq_one_iff wide).mpr one, BitVec.sdiv_one, sdiv_neg_one wide]
    · rw [(eq_neg_one_iff wide).mpr minusOne, sdiv_neg_one wide, neg_neg, neg_neg, BitVec.sdiv_one]
    · rw [(eq_intMin_iff wide).mpr least, BitVec.neg_intMin, BitVec.sdiv_intMin, BitVec.sdiv_intMin]
      simp

theorem bmod_of_range {n : ℤ} (least : -2 ^ (width - 1) ≤ n) (most : n < 2 ^ (width - 1)) :
    n.bmod (2 ^ width) = n := by
  have double : (2 : ℕ) ^ width = 2 * 2 ^ (width - 1) := by
    rw [← Nat.pow_succ']
    congr 1
    omega
  rw [double]
  apply Int.bmod_eq_of_le
  · push_cast
    omega
  · push_cast
    omega

/-- The product of the divisors decides, unless the first one is minus one. -/
theorem sdiv_sdiv_iff_of_ne {a b : BitVec width} (nonzero : a ≠ 0) (nonzero' : b ≠ 0)
    (other : a.toInt ≠ -1) :
    (∀ x : BitVec width, a * b ≠ 0 ∧ (x.sdiv a).sdiv b = x.sdiv (a * b)) ↔
      -2 ^ (width - 1) ≤ a.toInt * b.toInt ∧ a.toInt * b.toInt < 2 ^ (width - 1) := by
  have chain (x : BitVec width) : ((x.sdiv a).sdiv b).toInt =
      (x.toInt.tdiv (a.toInt * b.toInt)).bmod (2 ^ width) := by
    rw [BitVec.toInt_sdiv,
      BitVec.toInt_sdiv_of_ne_or_ne _ _ (.inr (mt (eq_neg_one_iff wide).mp other)), tdiv_tdiv]
  have some_a : a.toInt ≠ 0 := fun zero => nonzero (BitVec.eq_of_toInt_eq (by simpa using zero))
  have some_b : b.toInt ≠ 0 := fun zero => nonzero' (BitVec.eq_of_toInt_eq (by simpa using zero))
  have some_product : a.toInt * b.toInt ≠ 0 := mul_ne_zero some_a some_b
  constructor
  · intro same
    -- The product itself has the quotient one, which the chain reaches only in range.
    have one : ((a * b).toInt.tdiv (a.toInt * b.toInt)).bmod (2 ^ width) = 1 := by
      rw [← chain, (same (a * b)).2, BitVec.sdiv_self, if_neg (by simpa using (same 0).1),
        BitVec.toInt_one wide]
    have least := BitVec.le_toInt (a * b)
    have most := BitVec.toInt_lt (x := a * b)
    have size : ((a * b).toInt.tdiv (a.toInt * b.toInt)).natAbs =
        (a * b).toInt.natAbs / (a.toInt * b.toInt).natAbs := Int.natAbs_tdiv _ _
    by_contra outside
    generalize (a * b).toInt = c at *
    generalize a.toInt * b.toInt = p at *
    cases Nat.lt_or_ge c.natAbs p.natAbs with
    | inl below =>
      rw [Nat.div_eq_of_lt below, Int.natAbs_eq_zero] at size
      rw [size, Int.zero_bmod] at one
      exact absurd one (by omega)
    | inr above =>
      have opposite : p = -c := by omega
      rw [opposite, Int.tdiv_neg, Int.tdiv_self (by omega),
        bmod_of_range wide (by omega) (by omega)] at one
      exact absurd one (by omega)
  · intro range x
    have product : (a * b).toInt = a.toInt * b.toInt := by
      rw [BitVec.toInt_mul, bmod_of_range wide range.1 range.2]
    refine ⟨fun zero => ?_, ?_⟩
    · rw [zero] at product
      exact some_product (product.symm.trans BitVec.toInt_zero)
    · apply BitVec.eq_of_toInt_eq
      rw [chain, BitVec.toInt_sdiv, product]

/-- Both divisions have a value for the same dividends, and it is the same. -/
theorem sdiv_sdiv_iff {a b : BitVec width} (nonzero : a ≠ 0) (nonzero' : b ≠ 0) :
    (∀ x : BitVec width, a * b ≠ 0 ∧ (x.sdiv a).sdiv b = x.sdiv (a * b)) ↔
      SignedDivisorsCombine width a.toInt b.toInt := by
  unfold SignedDivisorsCombine
  split
  next minusOne =>
    rw [← neg_sdiv_iff wide nonzero', (eq_neg_one_iff wide).mpr minusOne]
    have negated : -BitVec.ofNat width 1 * b = -b := by
      rw [neg_mul, BitVec.one_mul]
    have inner : -b ≠ 0 := by
      intro zero
      exact nonzero' (neg_eq_zero.mp zero)
    simp only [negated, sdiv_neg_one wide, inner, ne_eq, not_false_eq_true, true_and]
  next other => exact sdiv_sdiv_iff_of_ne wide nonzero nonzero' other

end Signed

end DaveCC.Arith
