import DaveCC.Arith.NestedDivision
import DaveCC.Optimization.StrengthReduction

/-!
# The searches for magic numbers

Both loops keep the quotient and the remainder of a growing power of two by two
divisors. Their variables are words of 32 bits, so a quotient may have lost its high
bit; `add` of the unsigned loop records that. Each loop ends at a power that makes the
multiplier exact.
-/

namespace DaveCC.Optimization.StrengthReduction

open DaveCC.Arith DaveCC.Loop

section Unsigned

variable {d : BitVec 32} {search : UnsignedSearch}

theorem toNat_unsignedNc (large : 2 ≤ d.toNat) :
    (unsignedNc d).toNat = 2 ^ 32 - 1 - (2 ^ 32 - d.toNat) % d.toNat := by
  have remainder : (2 ^ 32 - d.toNat) % d.toNat < d.toNat := Nat.mod_lt _ (by omega)
  have negated : (0#32 - d).toNat = 2 ^ 32 - d.toNat := by
    rw [BitVec.toNat_sub, BitVec.toNat_ofNat]
    omega
  rw [unsignedNc, BitVec.toNat_sub, BitVec.toNat_umod, negated, BitVec.toNat_ofNat]
  omega

/-- The number that `unsignedNc` computes is one less than a multiple of the divisor,
and the next such number needs more than 32 bits. -/
theorem unsignedNc_spec (large : 2 ≤ d.toNat) :
    d.toNat ∣ (unsignedNc d).toNat + 1 ∧ 2 ^ 32 ≤ (unsignedNc d).toNat + d.toNat ∧
      2 ^ 31 ≤ (unsignedNc d).toNat := by
  have nc := toNat_unsignedNc large
  have remainder : (2 ^ 32 - d.toNat) % d.toNat < d.toNat := Nat.mod_lt _ (by omega)
  have within : (2 ^ 32 - d.toNat) % d.toNat ≤ 2 ^ 32 - d.toNat := Nat.mod_le _ _
  refine ⟨?_, by omega, by omega⟩
  have next : (unsignedNc d).toNat + 1 =
      2 ^ 32 - d.toNat - (2 ^ 32 - d.toNat) % d.toNat + d.toNat := by omega
  rw [next]
  exact Nat.dvd_add (Nat.dvd_sub_mod _) (Nat.dvd_refl _)

namespace UnsignedSearch

theorem step_p : (search.step d).p = search.p + 1 := by
  dsimp only [step]
  split_ifs <;> with_reducible rfl

theorem step_q1 : (search.step d).q1 =
    if unsignedNc d - search.r1 ≤ search.r1 then 2#32 * search.q1 + 1#32
    else 2#32 * search.q1 := by
  dsimp only [step]
  split_ifs <;> with_reducible rfl

theorem step_r1 : (search.step d).r1 =
    if unsignedNc d - search.r1 ≤ search.r1 then 2#32 * search.r1 - unsignedNc d
    else 2#32 * search.r1 := by
  dsimp only [step]
  split_ifs <;> with_reducible rfl

theorem step_q2 : (search.step d).q2 =
    if d - search.r2 ≤ search.r2 + 1#32 then 2#32 * search.q2 + 1#32
    else 2#32 * search.q2 := by
  dsimp only [step]
  split_ifs <;> with_reducible rfl

theorem step_r2 : (search.step d).r2 =
    if d - search.r2 ≤ search.r2 + 1#32 then 2#32 * search.r2 + 1#32 - d
    else 2#32 * search.r2 + 1#32 := by
  dsimp only [step]
  split_ifs <;> with_reducible rfl

theorem step_add : (search.step d).add =
    if d - search.r2 ≤ search.r2 + 1#32 then search.add || 0x7fffffff#32 ≤ search.q2
    else search.add || 0x80000000#32 ≤ search.q2 := by
  dsimp only [step]
  split_ifs <;> with_reducible rfl

/-- The variables of the unsigned search at a power of two. -/
structure At (d : BitVec 32) (search : UnsignedSearch) : Prop where
  q1 : search.q1.toNat = 2 ^ search.p / (unsignedNc d).toNat % 2 ^ 32
  r1 : search.r1.toNat = 2 ^ search.p % (unsignedNc d).toNat
  q2 : search.q2.toNat = (2 ^ search.p - 1) / d.toNat % 2 ^ 32
  r2 : search.r2.toNat = (2 ^ search.p - 1) % d.toNat
  add : search.add = true ↔ 2 ^ 32 - 1 ≤ (2 ^ search.p - 1) / d.toNat

theorem start_p : (start d).p = 31 :=
  rfl

theorem at_start : (start d).At d := by
  have ncQuotient : 2 ^ 31 / (unsignedNc d).toNat ≤ 2 ^ 31 := Nat.div_le_self _ _
  have quotient : (2 ^ 31 - 1) / d.toNat ≤ 2 ^ 31 - 1 := Nat.div_le_self _ _
  have ncProduct := Nat.mod_add_div (2 ^ 31) (unsignedNc d).toNat
  have product := Nat.mod_add_div (2 ^ 31 - 1) d.toNat
  have half : (0x80000000#32).toNat = 2 ^ 31 := rfl
  have belowHalf : (0x7fffffff#32).toNat = 2 ^ 31 - 1 := rfl
  constructor
  · rw [start_p, start, BitVec.toNat_udiv, half, Nat.mod_eq_of_lt (by omega)]
  · rw [start_p, start, BitVec.toNat_sub, BitVec.toNat_mul, BitVec.toNat_udiv, half,
      Nat.mul_comm (2 ^ 31 / _)]
    omega
  · rw [start_p, start, BitVec.toNat_udiv, belowHalf, Nat.mod_eq_of_lt (by omega)]
  · rw [start_p, start, BitVec.toNat_sub, BitVec.toNat_mul, BitVec.toNat_udiv, belowHalf,
      Nat.mul_comm ((2 ^ 31 - 1) / _)]
    omega
  · rw [start_p, start, Bool.false_eq_true, false_iff]
    omega

theorem At.step (large : 2 ≤ d.toNat) (holds : search.At d) : (search.step d).At d := by
  have spec := unsignedNc_spec large
  have ncPositive : 0 < (unsignedNc d).toNat := by omega
  have positive : 0 < d.toNat := by omega
  have power : 2 ^ (search.p + 1) = 2 * 2 ^ search.p + 0 := by ring
  have some_power : 0 < 2 ^ search.p := Nat.two_pow_pos _
  have less : 2 ^ (search.p + 1) - 1 = 2 * (2 ^ search.p - 1) + 1 := by omega
  have r1Below : 2 ^ search.p % (unsignedNc d).toNat < (unsignedNc d).toNat :=
    Nat.mod_lt _ ncPositive
  have r2Below : (2 ^ search.p - 1) % d.toNat < d.toNat := Nat.mod_lt _ positive
  have q1Eq := holds.q1
  have r1Eq := holds.r1
  have q2Eq := holds.q2
  have r2Eq := holds.r2
  have addIff := holds.add
  have upper : (unsignedNc d - search.r1 ≤ search.r1) ↔
      (unsignedNc d).toNat ≤ 2 * (2 ^ search.p % (unsignedNc d).toNat) + 0 := by
    rw [BitVec.le_def, BitVec.toNat_sub]
    omega
  have lower : (d - search.r2 ≤ search.r2 + 1#32) ↔
      d.toNat ≤ 2 * ((2 ^ search.p - 1) % d.toNat) + 1 := by
    rw [BitVec.le_def, BitVec.toNat_sub, BitVec.toNat_add, BitVec.toNat_ofNat]
    omega
  constructor
  · rw [step_q1, step_p, power, double_div ncPositive _ _ (by omega), if_congr upper rfl rfl]
    split
    · rw [BitVec.toNat_add, BitVec.toNat_mul, BitVec.toNat_ofNat, BitVec.toNat_ofNat]
      omega
    · rw [BitVec.toNat_mul, BitVec.toNat_ofNat]
      omega
  · rw [step_r1, step_p, power, double_mod ncPositive _ _ (by omega), if_congr upper rfl rfl]
    split
    · rw [BitVec.toNat_sub, BitVec.toNat_mul, BitVec.toNat_ofNat]
      omega
    · rw [BitVec.toNat_mul, BitVec.toNat_ofNat]
      omega
  · rw [step_q2, step_p, less, double_div positive _ _ (by omega), if_congr lower rfl rfl]
    split
    · rw [BitVec.toNat_add, BitVec.toNat_mul, BitVec.toNat_ofNat, BitVec.toNat_ofNat]
      omega
    · rw [BitVec.toNat_mul, BitVec.toNat_ofNat]
      omega
  · rw [step_r2, step_p, less, double_mod positive _ _ (by omega), if_congr lower rfl rfl]
    split
    · rw [BitVec.toNat_sub, BitVec.toNat_add, BitVec.toNat_mul, BitVec.toNat_ofNat,
        BitVec.toNat_ofNat]
      omega
    · rw [BitVec.toNat_add, BitVec.toNat_mul, BitVec.toNat_ofNat, BitVec.toNat_ofNat]
      omega
  · -- The quotient only grows, so that a carry once recorded stays one.
    rw [step_add, step_p, less, double_div positive _ _ (by omega), if_congr lower rfl rfl]
    split
    · simp only [Bool.or_eq_true, decide_eq_true_eq, BitVec.le_def, BitVec.toNat_ofNat, addIff]
      omega
    · simp only [Bool.or_eq_true, decide_eq_true_eq, BitVec.le_def, BitVec.toNat_ofNat, addIff]
      omega

/-- Where the unsigned search stands after a step: the quotient by the divisor needs
at most 33 bits. -/
structure Within (d : BitVec 32) (search : UnsignedSearch) : Prop where
  at_p : search.At d
  least : 32 ≤ search.p
  most : search.p ≤ 64
  power : 2 ^ search.p ≤ 2 ^ 33 * (d.toNat - 1)

theorem within_start (large : 2 ≤ d.toNat) : ((start d).step d).Within d where
  at_p := at_start.step large
  least := by rw [step_p, start_p]
  most := by rw [step_p, start_p]; omega
  power := by rw [step_p, start_p]; omega

theorem toNat_excess (holds : search.At d) (large : 2 ≤ d.toNat) :
    (d - 1#32 - search.r2).toNat = d.toNat - 1 - (2 ^ search.p - 1) % d.toNat := by
  have r2Eq := holds.r2
  have below : (2 ^ search.p - 1) % d.toNat < d.toNat := Nat.mod_lt _ (by omega)
  rw [BitVec.toNat_sub, BitVec.toNat_sub, BitVec.toNat_ofNat]
  omega

/-- While the search goes on the power is small. The quotient by `unsignedNc` has lost
its high bit only for the divisor `2 ^ 31 + 1`. -/
theorem Within.step (large : 2 ≤ d.toNat) (within : search.Within d)
    (goes_on : search.continues d = true) : (search.step d).Within d := by
  have spec := unsignedNc_spec large
  have nc := toNat_unsignedNc large
  have ncBound := (unsignedNc d).isLt
  have excess := toNat_excess within.at_p large
  have q1Eq := within.at_p.q1
  have r1Eq := within.at_p.r1
  simp only [continues, Bool.and_eq_true, decide_eq_true_eq, Bool.or_eq_true, beq_iff_eq,
    BitVec.lt_def] at goes_on
  have power : 2 ^ (search.p + 1) = 2 * 2 ^ search.p := by ring
  have split := Nat.div_add_mod (2 ^ search.p) (unsignedNc d).toNat
  have below : 2 ^ search.p % (unsignedNc d).toNat < (unsignedNc d).toNat :=
    Nat.mod_lt _ (by omega)
  have small : 2 ^ search.p ≤ 2 ^ 32 * (d.toNat - 1) := by
    cases Nat.lt_or_ge (2 ^ search.p / (unsignedNc d).toNat) (2 ^ 32) with
    | inl kept =>
      rw [Nat.mod_eq_of_lt kept] at q1Eq
      have product : 2 ^ search.p ≤
          (unsignedNc d).toNat * (d.toNat - 1 - (2 ^ search.p - 1) % d.toNat) := by
        cases goes_on.2 with
        | inl less =>
          rw [q1Eq, excess] at less
          have times := Nat.mul_le_mul_left (unsignedNc d).toNat less
          rw [Nat.succ_eq_add_one, Nat.mul_add] at times
          omega
        | inr equal =>
          have zero : search.r1.toNat = 0 := by
            simp [equal.2]
          have same : search.q1.toNat = d.toNat - 1 - (2 ^ search.p - 1) % d.toNat := by
            rw [← excess, ← equal.1]
          rw [← same, q1Eq]
          omega
      calc 2 ^ search.p
          ≤ (unsignedNc d).toNat * (d.toNat - 1 - (2 ^ search.p - 1) % d.toNat) := product
        _ ≤ 2 ^ 32 * (d.toNat - 1) := Nat.mul_le_mul ncBound.le (Nat.sub_le _ _)
    | inr lost =>
      have least := Nat.mul_le_mul_left (unsignedNc d).toNat lost
      have capped : 2 ^ search.p ≤ 2 ^ 63 :=
        Nat.pow_le_pow_right (by omega) (by omega)
      have notHalf : d.toNat ≠ 2 ^ 31 := by
        intro half
        rw [half] at nc
        omega
      omega
  exact
    { at_p := within.at_p.step large
      least := by rw [step_p]; have := within.least; omega
      most := by rw [step_p]; omega
      power := by rw [step_p]; omega }

/-- Where the search ends the power exceeds the error of every dividend. -/
theorem Within.small (large : 2 ≤ d.toNat) (within : search.Within d)
    (ends : search.continues d = false) :
    (unsignedNc d).toNat * (d.toNat - 1 - (2 ^ search.p - 1) % d.toNat) < 2 ^ search.p := by
  have spec := unsignedNc_spec large
  have ncBound := (unsignedNc d).isLt
  have excess := toNat_excess within.at_p large
  have q1Eq := within.at_p.q1
  have r1Eq := within.at_p.r1
  have split := Nat.div_add_mod (2 ^ search.p) (unsignedNc d).toNat
  cases Nat.lt_or_ge search.p 64 with
  | inr last =>
    have power : 2 ^ 64 ≤ 2 ^ search.p := Nat.pow_le_pow_right (by omega) last
    have product := Nat.mul_le_mul (Nat.le_of_lt_succ ncBound)
      (Nat.sub_le (d.toNat - 1) ((2 ^ search.p - 1) % d.toNat))
    omega
  | inl early =>
    simp only [continues, early, decide_true, Bool.true_and, Bool.or_eq_false_iff,
      decide_eq_false_iff_not, BitVec.lt_def, Bool.and_eq_false_iff, beq_eq_false_iff_ne,
      excess] at ends
    have atLeast : d.toNat - 1 - (2 ^ search.p - 1) % d.toNat ≤
        2 ^ search.p / (unsignedNc d).toNat := by
      have := Nat.mod_le (2 ^ search.p / (unsignedNc d).toNat) (2 ^ 32)
      omega
    cases Nat.lt_or_ge (d.toNat - 1 - (2 ^ search.p - 1) % d.toNat)
      (2 ^ search.p / (unsignedNc d).toNat) with
    | inl more =>
      have times := Nat.mul_le_mul_left (unsignedNc d).toNat more
      rw [Nat.succ_eq_add_one, Nat.mul_add] at times
      omega
    | inr equal =>
      have same : 2 ^ search.p / (unsignedNc d).toNat =
          d.toNat - 1 - (2 ^ search.p - 1) % d.toNat := by omega
      have nonzero : search.r1.toNat ≠ 0 := by
        intro zero
        cases ends.2 with
        | inl other =>
          apply other
          apply BitVec.eq_of_toNat_eq
          rw [q1Eq, excess, same, Nat.mod_eq_of_lt (by omega)]
        | inr other => exact other (BitVec.eq_of_toNat_eq zero)
      rw [same] at split
      omega

end UnsignedSearch

/-- The multiplier that a magic number stands for. -/
def UnsignedDivMagic.multiplier (magic : UnsignedDivMagic) : ℕ :=
  magic.magic.toNat + if magic.add then 2 ^ 32 else 0

/-- The magic number of a divisor: its multiplier and shift give every quotient. Only a
multiplier of 33 bits needs the addition. -/
structure UnsignedDivMagic.Divides (magic : UnsignedDivMagic) (d : ℕ) : Prop where
  quotient : ∀ n < 2 ^ 32, n * magic.multiplier / 2 ^ (32 + magic.shift) = n / d
  shift_le : magic.shift ≤ 32
  shift_lt : magic.add = false → magic.shift < 32

open UnsignedSearch

/-- The search ends within 32 iterations, at the magic number of its divisor. -/
theorem unsignedMagic32_spec (large : 2 ≤ d.toNat) {fuel : ℕ} (enough : 32 ≤ fuel) :
    ∃ magic, unsignedMagic32 fuel d = some magic ∧ magic.Divides d.toNat := by
  have start := within_start large
  have measured : 64 - ((UnsignedSearch.start d).step d).p ≤ fuel := by
    rw [step_p, start_p]
    omega
  rcases exists_runWhile (UnsignedSearch.Within d) (fun search => 64 - search.p)
    (fun search within goes_on =>
      ⟨search.step d, rfl, within.step large goes_on, by
        have early : search.p < 64 := by
          simp only [continues, Bool.and_eq_true, decide_eq_true_eq] at goes_on
          exact goes_on.1
        rw [step_p]
        omega⟩) start measured with ⟨final, returns, within, ends⟩
  refine ⟨_, by rw [unsignedMagic32, returns, Option.map_some], ?_⟩
  have spec := unsignedNc_spec large
  have small := within.small large ends
  have positive : 0 < d.toNat := by omega
  have power := within.power
  have least := within.least
  have most := within.most
  have division := Nat.div_add_mod (2 ^ final.p - 1) d.toNat
  have remainder : (2 ^ final.p - 1) % d.toNat < d.toNat := Nat.mod_lt _ positive
  have exceeds : ((2 ^ final.p - 1) / d.toNat + 1) * d.toNat =
      2 ^ final.p + (d.toNat - 1 - (2 ^ final.p - 1) % d.toNat) := by
    rw [Nat.add_mul, Nat.mul_comm]
    omega
  have narrow : (2 ^ final.p - 1) / d.toNat + 1 < 2 ^ 33 := by
    apply Nat.lt_of_mul_lt_mul_right (a := d.toNat)
    omega
  have add := within.at_p.add
  have q2Eq := within.at_p.q2
  have multiplier : UnsignedDivMagic.multiplier
      { magic := final.q2 + 1#32, shift := final.p - 32, add := final.add } =
        (2 ^ final.p - 1) / d.toNat + 1 := by
    simp only [UnsignedDivMagic.multiplier, BitVec.toNat_add, BitVec.toNat_ofNat, add, q2Eq]
    generalize (2 ^ final.p - 1) / d.toNat = quotient at narrow
    split <;> omega
  constructor
  · intro n inRange
    rw [multiplier, show 32 + (final.p - 32) = final.p by omega]
    exact mul_div_eq_div positive spec.1 exceeds small (by omega)
  · exact (by omega : final.p - 32 ≤ 32)
  · intro plain
    have less : ¬2 ^ 32 - 1 ≤ (2 ^ final.p - 1) / d.toNat := by
      intro carries
      rw [add.mpr carries] at plain
      cases plain
    have shorter : 2 ^ final.p < 2 ^ 64 := by
      have times := Nat.mul_le_mul_right d.toNat
        (by omega : (2 ^ final.p - 1) / d.toNat + 1 ≤ 2 ^ 32 - 1)
      omega
    have p_lt : final.p < 64 := (Nat.pow_lt_pow_iff_right (by omega)).mp shorter
    exact (by omega : final.p - 32 < 32)

end Unsigned

/-! ## The signed search -/

section Signed

variable {d : BitVec 32} {search : SignedSearch}

theorem toNat_signedAnc (large : 2 ≤ d.toNat) (positive : d.toNat < 2 ^ 31) :
    (signedAnc d).toNat = 2 ^ 31 - 1 - 2 ^ 31 % d.toNat := by
  have remainder : 2 ^ 31 % d.toNat < d.toNat := Nat.mod_lt _ (by omega)
  have t : (0x80000000#32 + d >>> (31 : Nat)).toNat = 2 ^ 31 := by
    rw [BitVec.toNat_add, BitVec.toNat_ushiftRight, Nat.shiftRight_eq_div_pow,
      Nat.div_eq_of_lt positive, BitVec.toNat_ofNat]
    rfl
  rw [signedAnc, BitVec.toNat_sub, BitVec.toNat_sub, BitVec.toNat_umod, t, BitVec.toNat_ofNat]
  omega

/-- The number that `signedAnc` computes is one less than a multiple of the divisor,
and the next such number needs more than 31 bits. -/
theorem signedAnc_spec (large : 2 ≤ d.toNat) (positive : d.toNat < 2 ^ 31) :
    d.toNat ∣ (signedAnc d).toNat + 1 ∧ 2 ^ 31 ≤ (signedAnc d).toNat + d.toNat ∧
      2 ^ 30 ≤ (signedAnc d).toNat ∧ (signedAnc d).toNat < 2 ^ 31 := by
  have anc := toNat_signedAnc large positive
  have remainder : 2 ^ 31 % d.toNat < d.toNat := Nat.mod_lt _ (by omega)
  have halved : 2 ^ 31 % d.toNat < 2 ^ 30 := by
    cases Nat.lt_or_ge (2 ^ 30) d.toNat with
    | inl more =>
      rw [Nat.mod_eq_sub_mod (by omega), Nat.mod_eq_of_lt (by omega)]
      omega
    | inr less => omega
  refine ⟨?_, by omega, by omega, by omega⟩
  have next : (signedAnc d).toNat + 1 = 2 ^ 31 - 2 ^ 31 % d.toNat := by omega
  rw [next]
  exact Nat.dvd_sub_mod _

namespace SignedSearch

theorem step_p : (search.step d).p = search.p + 1 :=
  rfl

theorem step_q1 : (search.step d).q1 =
    if signedAnc d ≤ 2#32 * search.r1 then 2#32 * search.q1 + 1#32 else 2#32 * search.q1 := by
  dsimp only [step]
  split_ifs <;> with_reducible rfl

theorem step_r1 : (search.step d).r1 =
    if signedAnc d ≤ 2#32 * search.r1 then 2#32 * search.r1 - signedAnc d
    else 2#32 * search.r1 := by
  dsimp only [step]
  split_ifs <;> with_reducible rfl

theorem step_q2 : (search.step d).q2 =
    if d ≤ 2#32 * search.r2 then 2#32 * search.q2 + 1#32 else 2#32 * search.q2 := by
  dsimp only [step]
  split_ifs <;> with_reducible rfl

theorem step_r2 : (search.step d).r2 =
    if d ≤ 2#32 * search.r2 then 2#32 * search.r2 - d else 2#32 * search.r2 := by
  dsimp only [step]
  split_ifs <;> with_reducible rfl

theorem start_p : (start d).p = 31 :=
  rfl

/-- The variables of the signed search at a power of two. -/
structure At (d : BitVec 32) (search : SignedSearch) : Prop where
  q1 : search.q1.toNat = 2 ^ search.p / (signedAnc d).toNat % 2 ^ 32
  r1 : search.r1.toNat = 2 ^ search.p % (signedAnc d).toNat
  q2 : search.q2.toNat = 2 ^ search.p / d.toNat % 2 ^ 32
  r2 : search.r2.toNat = 2 ^ search.p % d.toNat

theorem at_start : (start d).At d := by
  have ancQuotient : 2 ^ 31 / (signedAnc d).toNat ≤ 2 ^ 31 := Nat.div_le_self _ _
  have quotient : 2 ^ 31 / d.toNat ≤ 2 ^ 31 := Nat.div_le_self _ _
  have ancProduct := Nat.mod_add_div (2 ^ 31) (signedAnc d).toNat
  have product := Nat.mod_add_div (2 ^ 31) d.toNat
  have half : (0x80000000#32).toNat = 2 ^ 31 := rfl
  constructor
  · rw [start_p, start, BitVec.toNat_udiv, half, Nat.mod_eq_of_lt (by omega)]
  · rw [start_p, start, BitVec.toNat_sub, BitVec.toNat_mul, BitVec.toNat_udiv, half,
      Nat.mul_comm (2 ^ 31 / _)]
    omega
  · rw [start_p, start, BitVec.toNat_udiv, half, Nat.mod_eq_of_lt (by omega)]
  · rw [start_p, start, BitVec.toNat_sub, BitVec.toNat_mul, BitVec.toNat_udiv, half,
      Nat.mul_comm (2 ^ 31 / _)]
    omega

theorem At.step (large : 2 ≤ d.toNat) (positive : d.toNat < 2 ^ 31) (holds : search.At d) :
    (search.step d).At d := by
  have spec := signedAnc_spec large positive
  have ancPositive : 0 < (signedAnc d).toNat := by omega
  have dPositive : 0 < d.toNat := by omega
  have power : 2 ^ (search.p + 1) = 2 * 2 ^ search.p + 0 := by ring
  have r1Below : 2 ^ search.p % (signedAnc d).toNat < (signedAnc d).toNat :=
    Nat.mod_lt _ ancPositive
  have r2Below : 2 ^ search.p % d.toNat < d.toNat := Nat.mod_lt _ dPositive
  have q1Eq := holds.q1
  have r1Eq := holds.r1
  have q2Eq := holds.q2
  have r2Eq := holds.r2
  have first : (signedAnc d ≤ 2#32 * search.r1) ↔
      (signedAnc d).toNat ≤ 2 * (2 ^ search.p % (signedAnc d).toNat) + 0 := by
    rw [BitVec.le_def, BitVec.toNat_mul, BitVec.toNat_ofNat]
    omega
  have second : (d ≤ 2#32 * search.r2) ↔ d.toNat ≤ 2 * (2 ^ search.p % d.toNat) + 0 := by
    rw [BitVec.le_def, BitVec.toNat_mul, BitVec.toNat_ofNat]
    omega
  constructor
  · rw [step_q1, step_p, power, double_div ancPositive _ _ (by omega), if_congr first rfl rfl]
    split
    · rw [BitVec.toNat_add, BitVec.toNat_mul, BitVec.toNat_ofNat, BitVec.toNat_ofNat]
      omega
    · rw [BitVec.toNat_mul, BitVec.toNat_ofNat]
      omega
  · rw [step_r1, step_p, power, double_mod ancPositive _ _ (by omega), if_congr first rfl rfl]
    split
    · rw [BitVec.toNat_sub, BitVec.toNat_mul, BitVec.toNat_ofNat]
      omega
    · rw [BitVec.toNat_mul, BitVec.toNat_ofNat]
      omega
  · rw [step_q2, step_p, power, double_div dPositive _ _ (by omega), if_congr second rfl rfl]
    split
    · rw [BitVec.toNat_add, BitVec.toNat_mul, BitVec.toNat_ofNat, BitVec.toNat_ofNat]
      omega
    · rw [BitVec.toNat_mul, BitVec.toNat_ofNat]
      omega
  · rw [step_r2, step_p, power, double_mod dPositive _ _ (by omega), if_congr second rfl rfl]
    split
    · rw [BitVec.toNat_sub, BitVec.toNat_mul, BitVec.toNat_ofNat]
      omega
    · rw [BitVec.toNat_mul, BitVec.toNat_ofNat]
      omega

/-- Where the signed search stands after a step. -/
structure Within (d : BitVec 32) (search : SignedSearch) : Prop where
  at_p : search.At d
  least : 32 ≤ search.p
  power : 2 ^ search.p ≤ 2 * ((signedAnc d).toNat * d.toNat)
  delta : search.delta = d - search.r2

theorem within_start (large : 2 ≤ d.toNat) (positive : d.toNat < 2 ^ 31) :
    ((start d).step d).Within d where
  at_p := at_start.step large positive
  least := by rw [step_p, start_p]
  power := by
    have spec := signedAnc_spec large positive
    have product := Nat.mul_le_mul spec.2.2.1 large
    rw [step_p, start_p]
    omega
  delta := rfl

theorem Within.toNat_delta (within : search.Within d) (large : 2 ≤ d.toNat) :
    search.delta.toNat = d.toNat - 2 ^ search.p % d.toNat := by
  have r2Eq := within.at_p.r2
  have below : 2 ^ search.p % d.toNat < d.toNat := Nat.mod_lt _ (by omega)
  rw [within.delta, BitVec.toNat_sub]
  omega

section

variable (within : search.Within d) (large : 2 ≤ d.toNat) (positive : d.toNat < 2 ^ 31)

include within large positive

/-- The quotient by `signedAnc` keeps all its bits. -/
theorem Within.toNat_q1 : search.q1.toNat = 2 ^ search.p / (signedAnc d).toNat := by
  have quotient : 2 ^ search.p / (signedAnc d).toNat ≤ 2 * d.toNat := by
    apply Nat.div_le_of_le_mul
    have power := within.power
    rw [Nat.mul_left_comm]
    exact power
  rw [within.at_p.q1, Nat.mod_eq_of_lt (by omega)]

theorem Within.lt_63 : search.p < 63 := by
  have spec := signedAnc_spec large positive
  have product := Nat.mul_le_mul (Nat.le_of_lt_succ (Nat.lt_succ_of_lt spec.2.2.2))
    (Nat.le_sub_one_of_lt positive)
  have power := within.power
  apply (Nat.pow_lt_pow_iff_right (a := 2) (by omega)).mp
  omega

theorem Within.step (goes_on : search.continues = true) : (search.step d).Within d := by
  have spec := signedAnc_spec large positive
  have deltaEq := within.toNat_delta large
  have q1Eq := within.toNat_q1 large positive
  have r1Eq := within.at_p.r1
  have split := Nat.div_add_mod (2 ^ search.p) (signedAnc d).toNat
  have below : 2 ^ search.p % (signedAnc d).toNat < (signedAnc d).toNat :=
    Nat.mod_lt _ (by omega)
  have power : 2 ^ (search.p + 1) = 2 * 2 ^ search.p := by ring
  have small : 2 ^ search.p ≤ (signedAnc d).toNat * search.delta.toNat := by
    simp only [continues, Bool.or_eq_true, decide_eq_true_eq, Bool.and_eq_true, beq_iff_eq,
      BitVec.lt_def] at goes_on
    cases goes_on with
    | inl less =>
      rw [q1Eq] at less
      have times := Nat.mul_le_mul_left (signedAnc d).toNat less
      rw [Nat.succ_eq_add_one, Nat.mul_add] at times
      omega
    | inr equal =>
      have zero : search.r1.toNat = 0 := by
        simp [equal.2]
      rw [← equal.1, q1Eq]
      omega
  have product : (signedAnc d).toNat * search.delta.toNat ≤ (signedAnc d).toNat * d.toNat :=
    Nat.mul_le_mul_left _ (by omega)
  exact
    { at_p := within.at_p.step large positive
      least := by rw [step_p]; have := within.least; omega
      power := by rw [step_p]; omega
      delta := rfl }

theorem Within.small (ends : search.continues = false) :
    (signedAnc d).toNat * search.delta.toNat < 2 ^ search.p := by
  have spec := signedAnc_spec large positive
  have q1Eq := within.toNat_q1 large positive
  have r1Eq := within.at_p.r1
  have split := Nat.div_add_mod (2 ^ search.p) (signedAnc d).toNat
  simp only [continues, Bool.or_eq_false_iff, decide_eq_false_iff_not, BitVec.lt_def,
    Bool.and_eq_false_iff, beq_eq_false_iff_ne] at ends
  cases Nat.lt_or_ge search.delta.toNat (2 ^ search.p / (signedAnc d).toNat) with
  | inl more =>
    have times := Nat.mul_le_mul_left (signedAnc d).toNat more
    rw [Nat.succ_eq_add_one, Nat.mul_add] at times
    omega
  | inr most =>
    have same : search.q1 = search.delta := by
      apply BitVec.eq_of_toNat_eq
      omega
    have nonzero : search.r1.toNat ≠ 0 := by
      intro zero
      cases ends.2 with
      | inl other => exact other same
      | inr other => exact other (BitVec.eq_of_toNat_eq zero)
    rw [← same, q1Eq]
    omega

end

end SignedSearch

/-- The magic number of a positive divisor, for dividends of either sign. -/
structure SignedDivMagic.Divides (magic : SignedDivMagic) (d : ℕ) : Prop where
  quotient : ∀ n < 2 ^ 31, n * magic.magic.toNat / 2 ^ (32 + magic.shift) = n / d
  negative : ∀ n, 0 < n → n ≤ 2 ^ 31 →
    -((n * magic.magic.toNat : ℕ) : ℤ) / (2 ^ (32 + magic.shift) : ℕ) = -((n / d : ℕ) : ℤ) - 1
  shift_lt : magic.shift < 31

/-- A divisor that divides `2 ^ 31 + 1` leaves no more of a power of two than the power
has beyond `2 ^ 31`. -/
theorem delta_le_of_largest {divisor p : ℕ} (divides : divisor ∣ 2 ^ 31 + 1) (least : 31 ≤ p) :
    divisor - 2 ^ p % divisor ≤ 2 ^ (p - 31) := by
  have power : 2 ^ p = 2 ^ 31 * 2 ^ (p - 31) := by
    rw [← Nat.pow_add]
    congr 1
    omega
  have multiple : divisor ∣ 2 ^ p + 2 ^ (p - 31) := by
    rw [power, ← Nat.succ_mul]
    exact Dvd.dvd.mul_right divides _
  have rest : divisor ∣ 2 ^ p % divisor + 2 ^ (p - 31) := by
    rw [← Nat.div_add_mod (2 ^ p) divisor, Nat.add_assoc] at multiple
    exact (Nat.dvd_add_right (Nat.dvd_mul_right _ _)).mp multiple
  have reaches := Nat.le_of_dvd (Nat.add_pos_right _ (Nat.two_pow_pos _)) rest
  omega

open SignedSearch

/-- The search ends within 32 iterations, at the magic number of its divisor. -/
theorem signedMagic32_spec (large : 2 ≤ d.toNat) (positive : d.toNat < 2 ^ 31) {fuel : ℕ}
    (enough : 32 ≤ fuel) : ∃ magic, signedMagic32 fuel d = some magic ∧ magic.Divides d.toNat := by
  have start := within_start large positive
  have measured : 63 - ((SignedSearch.start d).step d).p ≤ fuel := by
    rw [step_p, start_p]
    omega
  rcases exists_runWhile (SignedSearch.Within d) (fun search => 63 - search.p)
    (fun search within goes_on =>
      ⟨search.step d, rfl, within.step large positive goes_on, by
        have early := within.lt_63 large positive
        rw [step_p]
        omega⟩) start measured with ⟨final, returns, within, ends⟩
  refine ⟨_, by rw [signedMagic32, returns, Option.map_some], ?_⟩
  have spec := signedAnc_spec large positive
  have small := within.small large positive ends
  have least := within.least
  have last := within.lt_63 large positive
  have deltaEq := within.toNat_delta large
  have q2Eq := within.at_p.q2
  have dPositive : 0 < d.toNat := by omega
  have division := Nat.div_add_mod (2 ^ final.p) d.toNat
  have remainder : 2 ^ final.p % d.toNat < d.toNat := Nat.mod_lt _ dPositive
  have exceeds : (2 ^ final.p / d.toNat + 1) * d.toNat =
      2 ^ final.p + final.delta.toNat := by
    rw [Nat.add_mul, Nat.mul_comm]
    omega
  have narrow : 2 ^ final.p / d.toNat ≤ 2 * (signedAnc d).toNat := by
    apply Nat.div_le_of_le_mul
    have power := within.power
    rw [Nat.mul_comm d.toNat, Nat.mul_assoc]
    exact power
  have multiplier : (final.q2 + 1#32).toNat = 2 ^ final.p / d.toNat + 1 := by
    rw [BitVec.toNat_add, BitVec.toNat_ofNat, q2Eq]
    generalize 2 ^ final.p / d.toNat = quotient at narrow
    omega
  have shift : 32 + (final.p - 32) = final.p := by omega
  constructor
  · intro n inRange
    rw [multiplier, shift]
    exact mul_div_eq_div dPositive spec.1 exceeds small (by omega)
  · intro n nonzero inRange
    rw [multiplier, shift]
    apply neg_mul_ediv_eq dPositive spec.1 exceeds small (by omega) nonzero
    cases Nat.lt_or_ge n ((signedAnc d).toNat + d.toNat) with
    | inl below => exact Or.inl below
    | inr largest =>
      -- The smallest dividend is one below a multiple of the divisor.
      have n_eq : n = 2 ^ 31 := by omega
      have divides : d.toNat ∣ 2 ^ 31 + 1 := by
        have sum := Nat.dvd_add spec.1 (Nat.dvd_refl d.toNat)
        have total : (signedAnc d).toNat + 1 + d.toNat = 2 ^ 31 + 1 := by omega
        rw [total] at sum
        exact sum
      have delta := delta_le_of_largest divides (by omega : 31 ≤ final.p)
      have power : 2 ^ final.p = 2 ^ 31 * 2 ^ (final.p - 31) := by
        rw [← Nat.pow_add]
        congr 1
        omega
      refine Or.inr ⟨by omega, ?_⟩
      rw [n_eq, power]
      exact Nat.mul_le_mul_left _ (by omega)
  · exact (by omega : final.p - 32 < 31)

end Signed

end DaveCC.Optimization.StrengthReduction
