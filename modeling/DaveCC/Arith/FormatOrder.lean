import DaveCC.Arith.IntFormat

/-!
# The numbers of a format

The number that a word stands for in a format orders the words as the comparisons
of the format do, and a difference of words is a difference of numbers as long as
it does not go below zero.
-/

namespace DaveCC.Arith.IntFormat

variable {format narrow : IntFormat}

/-- The number in the low bits of a word. -/
def number (format : IntFormat) (word : BitVec 64) : ℤ :=
  if format.isUnsigned then (format.read word).toNat else (format.read word).toInt

/-- The format of whole words with the same signedness. -/
def whole (format : IntFormat) : IntFormat where
  bits := 64
  isUnsigned := format.isUnsigned
  positive := by decide
  fits := le_rfl

/-- The comparison of the format compares numbers. -/
theorem lt_eq_number (left right : BitVec 64) :
    (if format.isUnsigned then (format.read left).ult (format.read right)
      else (format.read left).slt (format.read right)) =
      decide (format.number left < format.number right) := by
  cases sign : format.isUnsigned with
  | true => simp [number, sign, BitVec.ult]
  | false => simp [number, sign, BitVec.slt]

theorem number_eq_iff (left right : BitVec 64) :
    format.number left = format.number right ↔ format.read left = format.read right := by
  cases sign : format.isUnsigned with
  | true => simp [number, sign, BitVec.toNat_inj]
  | false => simp [number, sign, BitVec.toInt_inj]

variable {left right : BitVec 64}

theorem Canonical.number_eq_iff (leftCanonical : format.Canonical left)
    (rightCanonical : format.Canonical right) :
    format.number left = format.number right ↔ left = right := by
  rw [IntFormat.number_eq_iff, leftCanonical.eq_iff rightCanonical]

variable {word : BitVec 64}

/-- A word in canonical form has the same number as a whole. -/
theorem Canonical.number_whole (canonical : format.Canonical word) :
    format.whole.number word = format.number word := by
  cases sign : format.isUnsigned with
  | true => simp only [number, whole, sign, if_true, ← canonical.toNat_eq sign]; simp [read]
  | false =>
    simp only [number, whole, sign, Bool.false_eq_true, if_false, ← canonical.toInt_eq sign]
    simp [read]

/-- The number of a canonical word is the word's own. -/
theorem Canonical.number_eq (canonical : format.Canonical word) :
    format.number word = if format.isUnsigned then (word.toNat : ℤ) else word.toInt := by
  rw [← canonical.number_whole]
  simp [number, whole, read]

variable {greater less : BitVec 64}

/-- A difference that does not go below zero is the difference of the numbers. -/
theorem toNat_sub_read (atMost : format.number less ≤ format.number greater) :
    ((format.read greater - format.read less).toNat : ℤ) =
      format.number greater - format.number less := by
  have greaterBound := (format.read greater).isLt
  have lessBound := (format.read less).isLt
  rw [BitVec.toNat_sub]
  cases sign : format.isUnsigned with
  | true =>
    simp only [number, sign, if_true] at atMost ⊢
    have wraps : 2 ^ format.bits - (format.read less).toNat + (format.read greater).toNat =
        (format.read greater).toNat - (format.read less).toNat + 2 ^ format.bits := by omega
    rw [wraps, Nat.add_mod_right, Nat.mod_eq_of_lt (by omega)]
    omega
  | false =>
    simp only [number, sign, Bool.false_eq_true, if_false, BitVec.toInt_eq_toNat_cond] at atMost ⊢
    generalize (format.read greater).toNat = high at *
    generalize (format.read less).toNat = low at *
    generalize 2 ^ format.bits = size at *
    by_cases carry : low ≤ high
    · have wraps : size - low + high = high - low + size := by omega
      have reduced : (size - low + high) % size = high - low := by
        rw [wraps, Nat.add_mod_right, Nat.mod_eq_of_lt (by omega)]
      split_ifs at * <;> omega
    · have reduced : (size - low + high) % size = size - low + high :=
        Nat.mod_eq_of_lt (by omega)
      split_ifs at * <;> omega

/-- A difference below zero wraps around at the width. -/
theorem toNat_sub_read_of_lt (below : format.number less < format.number greater) :
    ((format.read less - format.read greater).toNat : ℤ) =
      format.number less - format.number greater + 2 ^ format.bits := by
  have forward := toNat_sub_read below.le
  have opposite : format.read less - format.read greater =
      -(format.read greater - format.read less) := (neg_sub _ _).symm
  have power : ((2 ^ format.bits : ℕ) : ℤ) = 2 ^ format.bits := by push_cast; rfl
  rw [opposite, BitVec.toNat_neg, Nat.mod_eq_of_lt (by omega)]
  omega

/-- The numbers of a format lie within its width of each other. -/
theorem number_sub_lt (left right : BitVec 64) :
    format.number left - format.number right < 2 ^ format.bits := by
  rcases le_or_gt (format.number right) (format.number left) with atMost | below
  · have bound := (format.read left - format.read right).isLt
    have power : ((2 ^ format.bits : ℕ) : ℤ) = 2 ^ format.bits := by push_cast; rfl
    have difference := toNat_sub_read atMost
    omega
  · have positive : (0 : ℤ) < 2 ^ format.bits := by positivity
    omega

@[simp] theorem number_zero : format.number 0 = 0 := by
  cases sign : format.isUnsigned <;> simp [number, sign, read]

theorem number_nonneg (unsigned : format.isUnsigned = true) (word : BitVec 64) :
    0 ≤ format.number word := by
  simp [number, unsigned]

theorem Canonical.toNat_sub (greaterCanonical : format.Canonical greater)
    (lessCanonical : format.Canonical less) (atMost : format.number less ≤ format.number greater) :
    ((greater - less).toNat : ℤ) = format.number greater - format.number less := by
  have unchanged : ∀ word, format.whole.read word = word := fun _ => BitVec.setWidth_eq _
  rw [← greaterCanonical.number_whole, ← lessCanonical.number_whole] at *
  rw [← toNat_sub_read atMost, unchanged, unchanged]
  rfl

/-- The format with the same bits read as unsigned. -/
def asUnsigned (format : IntFormat) : IntFormat :=
  { format with isUnsigned := true }

theorem asUnsigned_number_eq_iff (left right : BitVec 64) :
    format.asUnsigned.number left = format.asUnsigned.number right ↔
      format.number left = format.number right := by
  rw [number_eq_iff, number_eq_iff]
  rfl

/-- A canonical word that is not negative means the same when read as unsigned. -/
theorem Canonical.asUnsigned (canonical : format.Canonical word) (nonneg : 0 ≤ word.toInt) :
    format.asUnsigned.Canonical word ∧ format.asUnsigned.number word = format.number word := by
  cases sign : format.isUnsigned with
  | true =>
    have same : format.asUnsigned = format := by
      cases format
      cases sign
      rfl
    rw [same]
    exact ⟨canonical, rfl⟩
  | false =>
    have clear : (format.read word).msb = false := by
      rw [BitVec.msb_eq_toInt, decide_eq_false_iff_not, ← canonical.toInt_eq sign]
      omega
    constructor
    · have extended := canonical
      rw [Canonical, extend, if_neg (by simp [sign]),
        BitVec.signExtend_eq_setWidth_of_msb_false clear] at extended
      exact extended
    · have signed : format.number word = (format.read word).toInt := by simp [number, sign]
      rw [signed, BitVec.toInt_eq_toNat_of_msb clear]
      rfl

/-- Words that agree on some low bits agree on fewer. -/
theorem read_eq_of_read_eq (fewer : narrow.bits ≤ format.bits)
    (agree : format.read left = format.read right) : narrow.read left = narrow.read right := by
  have truncate : ∀ word, narrow.read word = (format.read word).setWidth narrow.bits := by
    intro word
    rw [read, read, BitVec.setWidth_setWidth_of_le _ fewer]
  rw [truncate, truncate, agree]

/-- A word in canonical form stays so in a wider format of the same signedness. -/
theorem Canonical.widen (canonical : narrow.Canonical word) (fewer : narrow.bits ≤ format.bits)
    (sameSign : narrow.isUnsigned = format.isUnsigned) : format.Canonical word := by
  have fits := format.fits
  rw [Canonical, extend, read, ← sameSign]
  cases sign : narrow.isUnsigned with
  | true =>
    apply BitVec.eq_of_toNat_eq
    have power : 2 ^ narrow.bits ≤ 2 ^ format.bits := Nat.pow_le_pow_right (by decide) fewer
    rw [if_pos rfl, BitVec.toNat_setWidth_of_le fits, BitVec.toNat_setWidth, Nat.mod_eq_of_lt]
    rw [canonical.toNat_eq sign]
    omega
  | false =>
    apply BitVec.eq_of_toInt_eq
    rw [if_neg (by decide), BitVec.toInt_signExtend_of_le fits]
    have small := canonical.toInt_eq sign
    rw [← BitVec.signExtend_eq_setWidth_of_le _ fits, BitVec.toInt_signExtend_eq_toInt_bmod_of_le _
      fits, small, ← BitVec.toInt_signExtend_of_le fewer, BitVec.toInt_bmod_cancel]

end DaveCC.Arith.IntFormat
