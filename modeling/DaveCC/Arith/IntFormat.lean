import Mathlib.Data.BitVec
import Mathlib.Tactic.Linarith

/-!
# Fixed-width integers in 64-bit words

A format is a width and a signedness. A word is in canonical form for a format
when it is the zero or sign extension of its low bits. The operations of the
format are those of `BitVec` at its width; the lemmas say which operations on
words compute them.
-/

namespace DaveCC.Arith

/-- The width and signedness of an integer that a 64-bit word can hold. -/
structure IntFormat where
  bits : Nat
  isUnsigned : Bool
  positive : 0 < bits
  fits : bits ≤ 64

namespace IntFormat

variable (format : IntFormat)

/-- The value of the format in the low bits of a word. -/
def read (word : BitVec 64) : BitVec format.bits :=
  word.setWidth format.bits

/-- The word in canonical form for a value of the format. -/
def extend (value : BitVec format.bits) : BitVec 64 :=
  if format.isUnsigned then value.setWidth 64 else value.signExtend 64

/-- A word that is the extension of its low bits. -/
def Canonical (word : BitVec 64) : Prop :=
  format.extend (format.read word) = word

/-- The canonical word with the same low bits. -/
def canonicalize (word : BitVec 64) : BitVec 64 :=
  format.extend (format.read word)

@[simp] theorem read_extend (value : BitVec format.bits) :
    format.read (format.extend value) = value := by
  have fits := format.fits
  unfold read extend
  split
  · rw [BitVec.setWidth_setWidth_of_le _ fits, BitVec.setWidth_eq]
  · rw [← BitVec.signExtend_eq_setWidth_of_le _ fits]
    apply BitVec.eq_of_toInt_eq
    rw [BitVec.toInt_signExtend_eq_toInt_bmod_of_le _ fits,
      BitVec.toInt_signExtend_of_le fits, BitVec.toInt_bmod_cancel]

@[simp] theorem extend_inj (left right : BitVec format.bits) :
    format.extend left = format.extend right ↔ left = right := by
  constructor
  · intro equal
    rw [← format.read_extend left, equal, format.read_extend]
  · rintro rfl
    rfl

@[simp] theorem read_canonicalize (word : BitVec 64) :
    format.read (format.canonicalize word) = format.read word :=
  format.read_extend _

theorem canonical_extend (value : BitVec format.bits) : format.Canonical (format.extend value) := by
  rw [Canonical, read_extend]

theorem canonical_canonicalize (word : BitVec 64) : format.Canonical (format.canonicalize word) :=
  format.canonical_extend _

variable {format}

theorem toNat_read (word : BitVec 64) : (format.read word).toNat = word.toNat % 2 ^ format.bits :=
  BitVec.toNat_setWidth _ _

theorem toInt_read (word : BitVec 64) :
    (format.read word).toInt = word.toInt.bmod (2 ^ format.bits) := by
  rw [read, ← BitVec.signExtend_eq_setWidth_of_le _ format.fits,
    BitVec.toInt_signExtend_eq_toInt_bmod_of_le _ format.fits]

variable {word : BitVec 64}

theorem Canonical.toNat_eq (canonical : format.Canonical word)
    (unsigned : format.isUnsigned = true) : word.toNat = (format.read word).toNat := by
  conv_lhs => rw [← canonical, extend, if_pos unsigned]
  exact BitVec.toNat_setWidth_of_le format.fits

theorem Canonical.toInt_eq (canonical : format.Canonical word)
    (signed : format.isUnsigned = false) : word.toInt = (format.read word).toInt := by
  conv_lhs => rw [← canonical, extend, if_neg (by simp [signed])]
  exact BitVec.toInt_signExtend_of_le format.fits

theorem Canonical.eq_iff {left right : BitVec 64} (leftCanonical : format.Canonical left)
    (rightCanonical : format.Canonical right) :
    left = right ↔ format.read left = format.read right := by
  rw [← format.extend_inj, leftCanonical, rightCanonical]

/-- An unsigned value narrower than the word leaves the sign bit clear. -/
theorem Canonical.msb_eq_false (canonical : format.Canonical word)
    (unsigned : format.isUnsigned = true) (narrow : format.bits < 64) : word.msb = false := by
  rw [BitVec.msb_eq_false_iff_two_mul_lt, canonical.toNat_eq unsigned]
  have power : 2 ^ format.bits ≤ 2 ^ 63 := Nat.pow_le_pow_right (by omega) (by omega)
  omega

theorem canonical_of_bits_eq (wide : format.bits = 64) (word : BitVec 64) :
    format.Canonical word := by
  obtain ⟨bits, isUnsigned, positive, fits⟩ := format
  subst wide
  simp [Canonical, extend, read]

/-- A small non-negative number is canonical for every format that has room. -/
theorem canonical_of_toNat_lt (small : word.toNat < 2 ^ (format.bits - 1)) :
    format.Canonical word := by
  have fits := format.fits
  have positive := format.positive
  have double : 2 ^ format.bits = 2 * 2 ^ (format.bits - 1) := by
    rw [← Nat.pow_succ']
    congr 1
    omega
  have readEq : (format.read word).toNat = word.toNat := by
    rw [toNat_read, Nat.mod_eq_of_lt (by omega)]
  have clear : (format.read word).msb = false := by
    rw [BitVec.msb_eq_false_iff_two_mul_lt, readEq]
    omega
  apply BitVec.eq_of_toNat_eq
  rw [extend, BitVec.signExtend_eq_setWidth_of_msb_false clear, ite_self,
    BitVec.toNat_setWidth_of_le fits, readEq]

theorem canonical_zero : format.Canonical 0 :=
  canonical_of_toNat_lt (Nat.two_pow_pos _)

theorem canonical_one (wide : 1 < format.bits) : format.Canonical 1 :=
  canonical_of_toNat_lt (Nat.one_lt_two_pow (by omega))

theorem Canonical.read_eq_zero_iff (canonical : format.Canonical word) :
    format.read word = 0 ↔ word = 0 := by
  have zero : format.read 0 = 0 := BitVec.setWidth_zero _ _
  rw [canonical.eq_iff canonical_zero, zero]

section

variable {left right : BitVec 64} (leftCanonical : format.Canonical left)
  (rightCanonical : format.Canonical right)

include leftCanonical rightCanonical

theorem Canonical.ult_eq (unsigned : format.isUnsigned = true) :
    left.ult right = (format.read left).ult (format.read right) := by
  rw [BitVec.ult, BitVec.ult, leftCanonical.toNat_eq unsigned, rightCanonical.toNat_eq unsigned]

theorem Canonical.ule_eq (unsigned : format.isUnsigned = true) :
    left.ule right = (format.read left).ule (format.read right) := by
  rw [BitVec.ule, BitVec.ule, leftCanonical.toNat_eq unsigned, rightCanonical.toNat_eq unsigned]

theorem Canonical.slt_eq (signed : format.isUnsigned = false) :
    left.slt right = (format.read left).slt (format.read right) := by
  rw [BitVec.slt, BitVec.slt, leftCanonical.toInt_eq signed, rightCanonical.toInt_eq signed]

theorem Canonical.sle_eq (signed : format.isUnsigned = false) :
    left.sle right = (format.read left).sle (format.read right) := by
  rw [BitVec.sle, BitVec.sle, leftCanonical.toInt_eq signed, rightCanonical.toInt_eq signed]

theorem Canonical.lt_eq :
    (if format.isUnsigned then left.ult right else left.slt right) =
      if format.isUnsigned then (format.read left).ult (format.read right)
      else (format.read left).slt (format.read right) := by
  cases sign : format.isUnsigned with
  | true => exact leftCanonical.ult_eq rightCanonical sign
  | false => exact leftCanonical.slt_eq rightCanonical sign

theorem Canonical.le_eq :
    (if format.isUnsigned then left.ule right else left.sle right) =
      if format.isUnsigned then (format.read left).ule (format.read right)
      else (format.read left).sle (format.read right) := by
  cases sign : format.isUnsigned with
  | true => exact leftCanonical.ule_eq rightCanonical sign
  | false => exact leftCanonical.sle_eq rightCanonical sign

theorem Canonical.beq_eq : (left == right) = (format.read left == format.read right) := by
  rw [Bool.eq_iff_iff, beq_iff_eq, beq_iff_eq, leftCanonical.eq_iff rightCanonical]

end

/-! ## Operations of the format -/

theorem read_add (left right : BitVec 64) :
    format.read (left + right) = format.read left + format.read right :=
  BitVec.setWidth_add _ _ format.fits

theorem read_sub (left right : BitVec 64) :
    format.read (left - right) = format.read left - format.read right := by
  rw [BitVec.sub_eq_add_neg, BitVec.sub_eq_add_neg, read_add]
  exact congrArg _ (BitVec.setWidth_neg_of_le format.fits)

theorem read_mul (left right : BitVec 64) :
    format.read (left * right) = format.read left * format.read right :=
  BitVec.setWidth_mul _ _ format.fits

theorem read_neg (word : BitVec 64) : format.read (-word) = -format.read word :=
  BitVec.setWidth_neg_of_le format.fits

theorem read_not (word : BitVec 64) : format.read (~~~word) = ~~~format.read word :=
  BitVec.setWidth_not format.fits

theorem read_and (left right : BitVec 64) :
    format.read (left &&& right) = format.read left &&& format.read right :=
  BitVec.setWidth_and

theorem read_or (left right : BitVec 64) :
    format.read (left ||| right) = format.read left ||| format.read right :=
  BitVec.setWidth_or

theorem read_xor (left right : BitVec 64) :
    format.read (left ^^^ right) = format.read left ^^^ format.read right :=
  BitVec.setWidth_xor

theorem read_shiftLeft (word : BitVec 64) (count : Nat) :
    format.read (word <<< count) = format.read word <<< count :=
  BitVec.setWidth_shiftLeft_of_le format.fits

section

variable {left right : BitVec 64} (leftCanonical : format.Canonical left)
  (rightCanonical : format.Canonical right)

include leftCanonical rightCanonical

theorem read_udiv (unsigned : format.isUnsigned = true) :
    format.read (left / right) = format.read left / format.read right := by
  apply BitVec.eq_of_toNat_eq
  rw [toNat_read, BitVec.toNat_udiv, BitVec.toNat_udiv,
    leftCanonical.toNat_eq unsigned, rightCanonical.toNat_eq unsigned]
  exact Nat.mod_eq_of_lt (Nat.lt_of_le_of_lt (Nat.div_le_self _ _) (format.read left).isLt)

theorem read_umod (unsigned : format.isUnsigned = true) :
    format.read (left % right) = format.read left % format.read right := by
  apply BitVec.eq_of_toNat_eq
  rw [toNat_read, BitVec.toNat_umod, BitVec.toNat_umod,
    leftCanonical.toNat_eq unsigned, rightCanonical.toNat_eq unsigned]
  exact Nat.mod_eq_of_lt (Nat.lt_of_le_of_lt (Nat.mod_le _ _) (format.read left).isLt)

theorem read_sdiv (signed : format.isUnsigned = false) :
    format.read (left.sdiv right) = (format.read left).sdiv (format.read right) := by
  apply BitVec.eq_of_toInt_eq
  rw [toInt_read, BitVec.toInt_sdiv, BitVec.toInt_sdiv, Int.bmod_bmod_of_dvd (Nat.pow_dvd_pow 2
    format.fits), leftCanonical.toInt_eq signed, rightCanonical.toInt_eq signed]

theorem read_srem (signed : format.isUnsigned = false) :
    format.read (left.srem right) = (format.read left).srem (format.read right) := by
  apply BitVec.eq_of_toInt_eq
  rw [toInt_read, BitVec.toInt_srem, leftCanonical.toInt_eq signed,
    rightCanonical.toInt_eq signed, ← BitVec.toInt_srem, BitVec.toInt_bmod_cancel]

end

/-! ## Shifts to the right

A right shift of a word brings bits above the format's width into it, so it is
the format's own shift only under a condition on the word. -/

theorem getLsbD_read (word : BitVec 64) (index : Nat) :
    (format.read word).getLsbD index =
      (decide (index < format.bits) && word.getLsbD index) :=
  BitVec.getLsbD_setWidth _ _ _

/-- Above the format's width a canonical word repeats its top bit. -/
theorem Canonical.getLsbD_of_le (canonical : format.Canonical word) {index : Nat}
    (above : format.bits ≤ index) (inside : index < 64) : word.getLsbD index = word.msb := by
  have narrow : format.bits < 64 := by omega
  cases unsigned : format.isUnsigned with
  | true =>
    rw [canonical.msb_eq_false unsigned narrow]
    conv_lhs => rw [← canonical, extend, if_pos unsigned]
    rw [BitVec.getLsbD_setWidth, getLsbD_read]
    simp [Nat.not_lt.mpr above]
  | false =>
    have extended (position : Nat) (high : format.bits ≤ position) (bound : position < 64) :
        word.getLsbD position = (format.read word).msb := by
      conv_lhs => rw [← canonical, extend, if_neg (by simp [unsigned])]
      rw [BitVec.getLsbD_signExtend, if_neg (by omega)]
      simp [bound]
    rw [BitVec.msb_eq_getLsbD_last, extended index above inside, extended 63 (by omega) (by omega)]

variable {count : Nat}

theorem read_ushiftRight_iff (canonical : format.Canonical word) (inside : count < format.bits) :
    format.read (word >>> count) = format.read word >>> count ↔
      count = 0 ∨ format.bits = 64 ∨ word.msb = false := by
  have fits := format.fits
  constructor
  · intro equal
    by_contra! failed
    obtain ⟨nonzero, narrow, negative⟩ := failed
    have atTop := congrArg (·.getLsbD (format.bits - count)) equal
    simp only [getLsbD_read, BitVec.getLsbD_ushiftRight] at atTop
    rw [show count + (format.bits - count) = format.bits by omega,
      canonical.getLsbD_of_le le_rfl (by omega)] at atTop
    simp only [lt_self_iff_false, decide_false, Bool.false_and, Bool.and_eq_false_iff,
      decide_eq_false_iff_not] at atTop
    rcases atTop with outside | clear
    · omega
    · exact negative clear
  · intro condition
    apply BitVec.eq_of_getLsbD_eq
    intro index bound
    simp only [getLsbD_read, BitVec.getLsbD_ushiftRight, bound, decide_true, Bool.true_and]
    by_cases below : count + index < format.bits
    · simp [below]
    · simp only [below, decide_false, Bool.false_and]
      by_cases high : count + index < 64
      · rw [canonical.getLsbD_of_le (by omega) high]
        rcases condition with zero | wide | clear
        · omega
        · omega
        · exact clear
      · exact BitVec.getLsbD_of_ge _ _ (by omega)

theorem read_sshiftRight_iff (canonical : format.Canonical word) :
    format.read (word.sshiftRight count) = (format.read word).sshiftRight count ↔
      count = 0 ∨ word.msb = (format.read word).msb := by
  have fits := format.fits
  have shifted (index : Nat) (bound : index < format.bits) :
      (format.read (word.sshiftRight count)).getLsbD index =
        if count + index < format.bits then word.getLsbD (count + index)
        else word.msb := by
    rw [getLsbD_read, BitVec.getLsbD_sshiftRight]
    simp only [bound, decide_true, Bool.true_and, show ¬(64 ≤ index) by omega,
      decide_false, Bool.not_false]
    split_ifs with high below
    · rfl
    · exact canonical.getLsbD_of_le (by omega) high
    · omega
    · rfl
  have formatShifted (index : Nat) (bound : index < format.bits) :
      ((format.read word).sshiftRight count).getLsbD index =
        if count + index < format.bits then word.getLsbD (count + index)
        else (format.read word).msb := by
    rw [BitVec.getLsbD_sshiftRight]
    simp only [show ¬(format.bits ≤ index) by omega, decide_false, Bool.not_false, Bool.true_and]
    split_ifs with below
    · rw [getLsbD_read]
      simp [below]
    · rfl
  constructor
  · intro equal
    by_cases zero : count = 0
    · exact .inl zero
    · have atTop := congrArg (·.getLsbD (format.bits - 1)) equal
      have positive := format.positive
      simp only [shifted _ (show format.bits - 1 < format.bits by omega),
        formatShifted _ (show format.bits - 1 < format.bits by omega),
        show ¬(count + (format.bits - 1) < format.bits) by omega, if_false] at atTop
      exact .inr atTop
  · intro condition
    apply BitVec.eq_of_getLsbD_eq
    intro index bound
    rw [shifted index bound, formatShifted index bound]
    rcases condition with zero | sign
    · rw [if_pos (by omega), if_pos (by omega)]
    · rw [sign]

/-- Shifting left and back keeps the low bits when the word has room for them. -/
theorem read_shiftLeft_sshiftRight (word : BitVec 64) (room : count + format.bits ≤ 64) :
    format.read ((word <<< count).sshiftRight count) = format.read word := by
  apply BitVec.eq_of_getLsbD_eq
  intro index bound
  rw [getLsbD_read, getLsbD_read, BitVec.getLsbD_sshiftRight, BitVec.getLsbD_shiftLeft]
  simp [bound, show ¬(64 ≤ index) by omega, show count + index < 64 by omega, show ¬(count + index < count) by omega]

theorem read_shiftLeft_sshiftRight_of_wide (wide : format.bits = 64) (word : BitVec 64)
    (count : Nat) :
    format.read ((word <<< count).sshiftRight count) =
      (format.read word <<< count).sshiftRight count := by
  obtain ⟨bits, isUnsigned, positive, fits⟩ := format
  subst wide
  simp [read]

end IntFormat

/-- Shifting left and arithmetically back restores exactly the values that fit
in the bits left over. -/
theorem shiftLeft_sshiftRight_eq_iff {width count : Nat} (value : BitVec width)
    (inside : count < width) :
    (value <<< count).sshiftRight count = value ↔
      -2 ^ (width - count - 1) ≤ value.toInt ∧ value.toInt < 2 ^ (width - count - 1) := by
  have shifted : (value <<< count).toInt = (value.toInt * 2 ^ count).bmod (2 ^ width) := by
    rw [BitVec.toInt_shiftLeft, Nat.shiftLeft_eq, BitVec.toInt_eq_toNat_bmod]
    push_cast
    rw [Int.bmod_mul_bmod]
  have power : (2 : Int) ^ (width - 1) = 2 ^ (width - count - 1) * 2 ^ count := by
    rw [← pow_add]
    congr 1
    omega
  have positive : (0 : Int) < 2 ^ count := by positivity
  rw [← BitVec.toInt_inj, BitVec.toInt_sshiftRight, Int.shiftRight_eq_div_pow]
  push_cast
  constructor
  · intro equal
    have upper := @BitVec.toInt_lt width (value <<< count)
    have lower := @BitVec.le_toInt width (value <<< count)
    rw [power] at upper lower
    rw [← equal]
    constructor
    · rw [Int.le_ediv_iff_mul_le positive]
      linarith
    · exact Int.ediv_lt_of_lt_mul positive upper
  · rintro ⟨lower, upper⟩
    have full : (2 : Int) ^ width = 2 * 2 ^ (width - 1) := by
      rw [← pow_succ']
      congr 1
      omega
    have upperScaled := Int.mul_lt_mul_of_pos_right upper positive
    have lowerScaled := Int.mul_le_mul_of_nonneg_right lower positive.le
    rw [neg_mul, ← power] at lowerScaled
    rw [shifted, Int.bmod_eq_of_le]
    · exact Int.mul_ediv_cancel _ positive.ne'
    · push_cast
      omega
    · push_cast
      omega

end DaveCC.Arith
