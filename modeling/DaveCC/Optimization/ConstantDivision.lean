import DaveCC.Arith.FormatOrder
import DaveCC.Optimization.MagicNumbers
import Mathlib.Algebra.Order.Ring.Abs

/-!
# Division by a constant is exact

The instructions that replace a division by a constant compute in the 64 bits of
`long long`. Their products and sums stay below the word size, and their result is
the quotient rounded toward zero.
-/

namespace DaveCC.Optimization

open DaveCC.Arith DaveCC.Backend IntFormat

/-- Whether the sum or the product of two words is that of their numbers. -/
def ExactOperation (opcode : IROpcode) (format : IntFormat) (a b : BitVec 64) : Prop :=
  match opcode with
  | .addi => format.number (format.extend (format.read a + format.read b)) =
      format.number a + format.number b
  | .muli => format.number (format.extend (format.read a * format.read b)) =
      format.number a * format.number b
  | _ => True

section Wide

variable {format left : IntFormat} (wide : format.bits = 64) (a b : BitVec 64)

include wide

attribute [local simp] IROpcode.integerValue IntFormat.extend ExactOperation IntFormat.number

theorem integerValue_muli_of_wide :
    IROpcode.muli.integerValue format left a b = some (a * b) := by
  rcases format with ⟨bits, isUnsigned, positive, fits⟩
  subst wide
  simp [IntFormat.read]

theorem integerValue_addi_of_wide :
    IROpcode.addi.integerValue format left a b = some (a + b) := by
  rcases format with ⟨bits, isUnsigned, positive, fits⟩
  subst wide
  simp [IntFormat.read]

variable {count : ℕ}

theorem countBelow_of_wide (small : count < 64) :
    IROpcode.countBelow format (BitVec.ofNat 64 count) := by
  have toInt : (BitVec.ofNat 64 count).toInt = count := by
    rw [BitVec.toInt_ofNat', Int.bmod_eq_of_le (by omega) (by omega)]
  rw [IROpcode.countBelow, toInt, wide]
  omega

theorem integerValue_lsri_of_wide (small : count < 64) :
    IROpcode.lsri.integerValue format left a (BitVec.ofNat 64 count) = some (a >>> count) := by
  have below := countBelow_of_wide wide small
  have toNat : (BitVec.ofNat 64 count).toNat = count := by
    rw [BitVec.toNat_ofNat, Nat.mod_eq_of_lt (by omega)]
  rcases format with ⟨bits, isUnsigned, positive, fits⟩
  subst wide
  simp [IntFormat.read, below, toNat, -BitVec.toNat_ofNat]

theorem integerValue_asri_of_wide (small : count < 64) :
    IROpcode.asri.integerValue format left a (BitVec.ofNat 64 count) =
      some (a.sshiftRight count) := by
  have below := countBelow_of_wide wide small
  have toNat : (BitVec.ofNat 64 count).toNat = count := by
    rw [BitVec.toNat_ofNat, Nat.mod_eq_of_lt (by omega)]
  rcases format with ⟨bits, isUnsigned, positive, fits⟩
  subst wide
  simp [IntFormat.read, below, toNat, -BitVec.toNat_ofNat]

/-- The extension of a narrower value to a word. -/
theorem integerValue_zeroextendi_of_wide (narrow : left.bits < 64) :
    IROpcode.zeroextendi.integerValue format left a b = some ((left.read a).setWidth 64) := by
  rcases format with ⟨bits, isUnsigned, positive, fits⟩
  subst wide
  simp [narrow.ne]

theorem integerValue_signextendi_of_wide (narrow : left.bits < 64) :
    IROpcode.signextendi.integerValue format left a b = some ((left.read a).signExtend 64) := by
  rcases format with ⟨bits, isUnsigned, positive, fits⟩
  subst wide
  simp [narrow.ne]

theorem integerValue_zeroextendi_to_narrow (narrow : left.bits < 64) :
    IROpcode.zeroextendi.integerValue left format a b = some (left.canonicalize a) := by
  rcases format with ⟨bits, isUnsigned, positive, fits⟩
  subst wide
  simp [canonicalize, IntFormat.read, narrow.ne']

theorem integerValue_signextendi_to_narrow (narrow : left.bits < 64) :
    IROpcode.signextendi.integerValue left format a b = some (left.canonicalize a) := by
  have truncates : a.signExtend left.bits = a.setWidth left.bits :=
    BitVec.signExtend_eq_setWidth_of_le _ narrow.le
  rcases format with ⟨bits, isUnsigned, positive, fits⟩
  subst wide
  simp [canonicalize, IntFormat.read, narrow.ne', truncates]

theorem exactProduct_of_wide_unsigned (unsigned : format.isUnsigned = true)
    (product : (a * b).toNat = a.toNat * b.toNat) : ExactOperation .muli format a b := by
  rcases format with ⟨bits, isUnsigned, positive, fits⟩
  subst wide unsigned
  simp [IntFormat.read, product, -BitVec.toNat_mul]

theorem exactSum_of_wide_unsigned (unsigned : format.isUnsigned = true)
    (sum : (a + b).toNat = a.toNat + b.toNat) : ExactOperation .addi format a b := by
  rcases format with ⟨bits, isUnsigned, positive, fits⟩
  subst wide unsigned
  simp [IntFormat.read, sum, -BitVec.toNat_add]

theorem exactProduct_of_wide_signed (signed : format.isUnsigned = false)
    (product : (a * b).toInt = a.toInt * b.toInt) : ExactOperation .muli format a b := by
  rcases format with ⟨bits, isUnsigned, positive, fits⟩
  subst wide signed
  simp [IntFormat.read, product, -BitVec.toInt_mul]

theorem exactSum_of_wide_signed (signed : format.isUnsigned = false)
    (sum : (a + b).toInt = a.toInt + b.toInt) : ExactOperation .addi format a b := by
  rcases format with ⟨bits, isUnsigned, positive, fits⟩
  subst wide signed
  simp [IntFormat.read, sum, -BitVec.toInt_add]

end Wide

section Signed

variable {x y : BitVec 64}

section Product

variable (least : -2 ^ 31 ≤ x.toInt) (most : x.toInt < 2 ^ 31) (least' : -2 ^ 31 ≤ y.toInt)
  (most' : y.toInt < 2 ^ 31)

include least most least' most'

theorem mul_bounds_of_small : -2 ^ 62 ≤ x.toInt * y.toInt ∧ x.toInt * y.toInt ≤ 2 ^ 62 := by
  rw [← abs_le, abs_mul]
  calc |x.toInt| * |y.toInt| ≤ 2 ^ 31 * 2 ^ 31 :=
        mul_le_mul (abs_le.mpr ⟨by omega, by omega⟩) (abs_le.mpr ⟨by omega, by omega⟩)
          (abs_nonneg _) (by omega)
    _ = 2 ^ 62 := by norm_num

/-- The product of two words of 32 bits. -/
theorem toInt_mul_of_small : (x * y).toInt = x.toInt * y.toInt := by
  have bounds := mul_bounds_of_small least most least' most'
  rw [BitVec.toInt_mul, Int.bmod_eq_of_le (by omega) (by omega)]

end Product

/-- The sum of two words far from the ends of the range. -/
theorem toInt_add_of_small (least : -2 ^ 62 ≤ x.toInt) (most : x.toInt < 2 ^ 62)
    (least' : -2 ^ 62 ≤ y.toInt) (most' : y.toInt < 2 ^ 62) :
    (x + y).toInt = x.toInt + y.toInt := by
  rw [BitVec.toInt_add, Int.bmod_eq_of_le (by omega) (by omega)]

theorem toInt_sshiftRight_eq_ediv (count : ℕ) :
    (x.sshiftRight count).toInt = x.toInt / 2 ^ count := by
  rw [BitVec.toInt_sshiftRight, Int.shiftRight_eq_div_pow]
  norm_cast

/-- The top bit of a word counts one for a negative number. -/
theorem toInt_signBit : (x >>> 63).toInt = if x.toInt < 0 then 1 else 0 := by
  have toNat : (x >>> 63).toNat = x.toNat / 2 ^ 63 := by
    rw [BitVec.toNat_ushiftRight, Nat.shiftRight_eq_div_pow]
  rw [BitVec.toInt_eq_toNat_of_lt (by omega), toNat, BitVec.toInt_eq_toNat_cond]
  split <;> split <;> omega

end Signed

/-- Words brought to a format keep their numbers. -/
theorem number_canonicalize (format : IntFormat) (word : BitVec 64) :
    format.number (format.canonicalize word) = format.number word := by
  rw [number_eq_iff, read_canonicalize]

namespace StrengthReduction

variable {d : ℕ}

/-- The number of a signed magic number, whose top bit counts as negative. -/
theorem SignedDivMagic.toInt_eq (magic : SignedDivMagic) :
    (magic.magic.signExtend 64).toInt =
      (magic.magic.toNat : ℤ) - if magic.magic.slt 0 then 2 ^ 32 else 0 := by
  have zero : (0 : BitVec 32).toInt = 0 := rfl
  rw [BitVec.toInt_signExtend_of_le (by omega)]
  simp only [BitVec.slt, zero, decide_eq_true_eq, BitVec.toInt_eq_toNat_cond]
  split <;> split <;> omega

/-- The product of a dividend with the multiplier, divided by the power, is the quotient
less one for each negative dividend. -/
theorem SignedDivMagic.Divides.ediv_eq {magic : SignedDivMagic} (divides : magic.Divides d)
    {n : ℤ} (least : -2 ^ 31 ≤ n) (most : n < 2 ^ 31) :
    n * magic.magic.toNat / 2 ^ 32 / 2 ^ magic.shift = n.tdiv d - if n < 0 then 1 else 0 := by
  rw [Int.ediv_ediv_of_nonneg (by omega), ← Int.pow_add]
  cases n with
  | ofNat dividend =>
    have quotient := divides.quotient dividend (by rw [Int.ofNat_eq_natCast] at most; omega)
    rw [Int.ofNat_eq_natCast, if_neg (by omega), Int.sub_zero, ← Int.ofNat_tdiv, ← quotient]
    push_cast
    rfl
  | negSucc pred =>
    have negative := divides.negative (pred + 1) (by omega) (by omega)
    have size : Int.negSucc pred = -((pred + 1 : ℕ) : ℤ) := rfl
    rw [size, if_pos (by omega), Int.neg_tdiv, ← Int.ofNat_tdiv, ← negative]
    push_cast
    ring_nf

end StrengthReduction

variable [Compiler]

namespace Term

/-- No sum and no product of a term overflows. -/
def Exact (gen : Generator) (words : Words) : Term → Prop
  | .node _ => True
  | .constant _ _ => True
  | .operation opcode type left right =>
    left.Exact gen words ∧ right.Exact gen words ∧
      ∀ a b, left.value gen words = some a → right.value gen words = some b →
        ExactOperation opcode (storageFormat type) a b

/-- A term that has a value without an overflow on the way. -/
structure Evaluates (gen : Generator) (words : Words) (term : Term) (word : BitVec 64) :
    Prop where
  value : term.value gen words = some word
  exact : term.Exact gen words

variable {gen : Generator} {words : Words} {type : TypeRecord} {left right : Term} {a b : BitVec 64}

theorem Evaluates.constant (type : TypeRecord) (word : BitVec 64) :
    (Term.constant type word).Evaluates gen words word where
  value := rfl
  exact := trivial

theorem Evaluates.operation {opcode : IROpcode} {word : BitVec 64}
    (leftValue : left.Evaluates gen words a) (rightValue : right.Evaluates gen words b)
    (value : opcode.integerValue (storageFormat type) (left.format gen) a b = some word)
    (exact : ExactOperation opcode (storageFormat type) a b) :
    (Term.operation opcode type left right).Evaluates gen words word where
  value := by
    rw [Term.value, leftValue.value, rightValue.value]
    exact value
  exact := by
    refine ⟨leftValue.exact, rightValue.exact, ?_⟩
    intro first second firstValue secondValue
    rw [leftValue.value] at firstValue
    rw [rightValue.value] at secondValue
    cases firstValue
    cases secondValue
    exact exact

variable (wide : (storageFormat type).bits = 64)

include wide

theorem Evaluates.mul (leftValue : left.Evaluates gen words a)
    (rightValue : right.Evaluates gen words b)
    (exact : ExactOperation .muli (storageFormat type) a b) :
    (Term.operation .muli type left right).Evaluates gen words (a * b) :=
  leftValue.operation rightValue (integerValue_muli_of_wide wide a b) exact

theorem Evaluates.add (leftValue : left.Evaluates gen words a)
    (rightValue : right.Evaluates gen words b)
    (exact : ExactOperation .addi (storageFormat type) a b) :
    (Term.operation .addi type left right).Evaluates gen words (a + b) :=
  leftValue.operation rightValue (integerValue_addi_of_wide wide a b) exact

theorem Evaluates.lsr (leftValue : left.Evaluates gen words a) {count : ℕ} (small : count < 64)
    (countType : TypeRecord) :
    (Term.operation .lsri type left (.constant countType (BitVec.ofNat 64 count))).Evaluates gen
      words (a >>> count) :=
  leftValue.operation (.constant _ _) (integerValue_lsri_of_wide wide a small) trivial

theorem Evaluates.asr (leftValue : left.Evaluates gen words a) {count : ℕ} (small : count < 64)
    (countType : TypeRecord) :
    (Term.operation .asri type left (.constant countType (BitVec.ofNat 64 count))).Evaluates gen
      words (a.sshiftRight count) :=
  leftValue.operation (.constant _ _) (integerValue_asri_of_wide wide a small) trivial

end Term

namespace StrengthReduction

theorem wideType_format (unsigned : Bool) :
    (storageFormat (wideType unsigned 8)).bits = 64 ∧
      (storageFormat (wideType unsigned 8)).isUnsigned = unsigned := by
  have format := storageFormat_of_size (show 0 < (wideType unsigned 8).size from Nat.succ_pos 7)
    (show (wideType unsigned 8).size ≤ 8 from le_refl 8)
  refine ⟨format.1, ?_⟩
  rw [format.2]
  unfold TypeRecord.isUnsigned
  generalize Compiler.plainCharIsSigned = plain
  cases unsigned <;> cases plain <;> rfl

variable {gen : Generator} {words : Words} {n64 : Term} {n : BitVec 64} {d : ℕ}

/-! ## Quotients -/

/-- The quotient of a dividend of at most 32 bits. -/
theorem unsignedQuotient_evaluates {magic : UnsignedDivMagic} (divides : magic.Divides d)
    (dividend : n64.Evaluates gen words n) (small : n.toNat < 2 ^ 32) :
    ∃ quotient, (unsignedQuotient (wideType true 8) magic n64).Evaluates gen words quotient ∧
      quotient.toNat = n.toNat / d := by
  have wide := wideType_format true
  have magicNat : (magic.magic.setWidth 64).toNat = magic.magic.toNat :=
    BitVec.toNat_setWidth_of_le (by omega)
  have product : n.toNat * magic.magic.toNat < 2 ^ 64 := by
    calc n.toNat * magic.magic.toNat ≤ (2 ^ 32 - 1) * (2 ^ 32 - 1) :=
          Nat.mul_le_mul (by omega) (by omega)
      _ < 2 ^ 64 := by omega
  have prodNat : (n * magic.magic.setWidth 64).toNat = n.toNat * magic.magic.toNat := by
    rw [BitVec.toNat_mul, magicNat, Nat.mod_eq_of_lt product]
  have prod := dividend.mul wide.1 (.constant (wideType true 8) (magic.magic.setWidth 64))
    (exactProduct_of_wide_unsigned wide.1 _ _ wide.2 (by rw [prodNat, magicNat]))
  have quotientEq := divides.quotient n.toNat small
  unfold unsignedQuotient
  cases add : magic.add with
  | false =>
    have shift := divides.shift_lt add
    refine ⟨_, prod.lsr wide.1 (by omega) _, ?_⟩
    rw [BitVec.toNat_ushiftRight, prodNat, Nat.shiftRight_eq_div_pow, ← quotientEq,
      UnsignedDivMagic.multiplier, add]
    rfl
  | true =>
    have shift := divides.shift_le
    have hi := prod.lsr wide.1 (by omega : 32 < 64) (wideType true 8)
    have hiNat : ((n * magic.magic.setWidth 64) >>> 32).toNat =
        n.toNat * magic.magic.toNat / 2 ^ 32 := by
      rw [BitVec.toNat_ushiftRight, prodNat, Nat.shiftRight_eq_div_pow]
    have sumNat : ((n * magic.magic.setWidth 64) >>> 32 + n).toNat =
        n.toNat * magic.magic.toNat / 2 ^ 32 + n.toNat := by
      rw [BitVec.toNat_add, hiNat, Nat.mod_eq_of_lt (by omega)]
    have sum := hi.add wide.1 dividend
      (exactSum_of_wide_unsigned wide.1 _ _ wide.2 (by rw [sumNat, hiNat]))
    have shifted : (n.toNat * magic.magic.toNat / 2 ^ 32 + n.toNat) / 2 ^ magic.shift =
        n.toNat / d := by
      rw [← quotientEq, UnsignedDivMagic.multiplier, add, if_pos rfl, Nat.pow_add,
        ← Nat.div_div_eq_div_mul, Nat.mul_add, Nat.add_mul_div_right _ _ (by omega)]
    simp only [Bool.not_true, Bool.false_eq_true, if_false]
    split
    next none =>
      refine ⟨_, sum, ?_⟩
      rw [sumNat, ← shifted, none, Nat.pow_zero, Nat.div_one]
    next =>
      refine ⟨_, sum.lsr wide.1 (by omega) _, ?_⟩
      rw [BitVec.toNat_ushiftRight, sumNat, Nat.shiftRight_eq_div_pow, shifted]

/-- The high half of the product with the multiplier. -/
theorem signedHigh_evaluates (magic : SignedDivMagic) (dividend : n64.Evaluates gen words n)
    (least : -2 ^ 31 ≤ n.toInt) (most : n.toInt < 2 ^ 31) :
    let wide := wideType false 8
    let prod := Term.operation .muli wide n64 (.constant wide (magic.magic.signExtend 64))
    let hi := Term.operation .asri wide prod (.constant wide 32#64)
    ∃ high, (if magic.magic.slt 0 then Term.operation .addi wide hi n64 else hi).Evaluates gen
        words high ∧
      high.toInt = n.toInt * magic.magic.toNat / 2 ^ 32 := by
  intro wide prod hi
  have format := wideType_format false
  have magicInt := magic.toInt_eq
  have magicLeast : -2 ^ 31 ≤ (magic.magic.signExtend 64).toInt := by
    rw [BitVec.toInt_signExtend_of_le (by omega)]
    exact BitVec.le_toInt _
  have magicMost : (magic.magic.signExtend 64).toInt < 2 ^ 31 := by
    rw [BitVec.toInt_signExtend_of_le (by omega)]
    exact BitVec.toInt_lt
  have prodInt := toInt_mul_of_small least most magicLeast magicMost
  have prodValue : prod.Evaluates gen words (n * magic.magic.signExtend 64) :=
    dividend.mul format.1 (.constant wide (magic.magic.signExtend 64))
      (exactProduct_of_wide_signed format.1 _ _ format.2 prodInt)
  have hiValue : hi.Evaluates gen words ((n * magic.magic.signExtend 64).sshiftRight 32) :=
    prodValue.asr format.1 (by omega) wide
  have hiInt : ((n * magic.magic.signExtend 64).sshiftRight 32).toInt =
      n.toInt * (magic.magic.signExtend 64).toInt / 2 ^ 32 := by
    rw [toInt_sshiftRight_eq_ediv, prodInt]
  cases negative : magic.magic.slt 0 with
  | false =>
    rw [negative, if_neg (by simp), Int.sub_zero] at magicInt
    rw [magicInt] at hiInt
    exact ⟨_, hiValue, hiInt⟩
  | true =>
    rw [negative, if_pos rfl] at magicInt
    have product := mul_bounds_of_small least most magicLeast magicMost
    have sumInt : ((n * magic.magic.signExtend 64).sshiftRight 32 + n).toInt =
        n.toInt * (magic.magic.signExtend 64).toInt / 2 ^ 32 + n.toInt := by
      rw [toInt_add_of_small (by omega) (by omega) (by omega) (by omega), hiInt]
    refine ⟨_, hiValue.add format.1 dividend
      (exactSum_of_wide_signed format.1 _ _ format.2 (by rw [sumInt, hiInt])), ?_⟩
    have shifted : n.toInt * magic.magic.toNat =
        n.toInt * (magic.magic.signExtend 64).toInt + n.toInt * 2 ^ 32 := by
      rw [← Int.mul_add, magicInt, Int.sub_add_cancel]
    rw [sumInt, shifted, Int.add_mul_ediv_right _ _ (by omega)]

/-- The quotient of a dividend of at most 32 bits, rounded toward zero. -/
theorem signedQuotient_evaluates {magic : SignedDivMagic} (divides : magic.Divides d)
    (dividend : n64.Evaluates gen words n) (least : -2 ^ 31 ≤ n.toInt) (most : n.toInt < 2 ^ 31) :
    ∃ quotient, (signedQuotient (wideType false 8) magic n64).Evaluates gen words quotient ∧
      quotient.toInt = n.toInt.tdiv d := by
  have wide := wideType_format false
  have shift := divides.shift_lt
  have rounded := divides.ediv_eq least most
  have signbit := dividend.lsr wide.1 (by omega : 63 < 64) (wideType false 8)
  have signbitInt : (n >>> 63).toInt = if n.toInt < 0 then 1 else 0 := toInt_signBit
  have size : (n.toInt.tdiv d).natAbs ≤ n.toInt.natAbs := by
    rw [Int.natAbs_tdiv]
    exact Nat.div_le_self _ _
  have shiftedHigh : ∀ {hi : Term} {high : BitVec 64}, hi.Evaluates gen words high →
      high.toInt = n.toInt * magic.magic.toNat / 2 ^ 32 →
        ∃ shifted, (if 0 < magic.shift then
          Term.operation .asri (wideType false 8) hi
            (.constant (wideType false 8) (BitVec.ofNat 64 magic.shift))
          else hi).Evaluates gen words shifted ∧
          shifted.toInt = n.toInt.tdiv d - if n.toInt < 0 then 1 else 0 := by
    intro hi high value highInt
    split
    next =>
      refine ⟨_, value.asr wide.1 (by omega) _, ?_⟩
      rw [toInt_sshiftRight_eq_ediv, highInt, rounded]
    next zero =>
      have none : magic.shift = 0 := by omega
      refine ⟨high, value, ?_⟩
      rw [← rounded, highInt, none, pow_zero, Int.ediv_one]
  rcases signedHigh_evaluates magic dividend least most with ⟨high, value, highInt⟩
  rcases shiftedHigh value highInt with ⟨shifted, shiftedValue, shiftedInt⟩
  have sumInt : (shifted + n >>> 63).toInt = n.toInt.tdiv d := by
    rw [toInt_add_of_small (by omega) (by omega) (by split at signbitInt <;> omega)
      (by split at signbitInt <;> omega), shiftedInt, signbitInt, Int.sub_add_cancel]
  refine ⟨_, shiftedValue.add wide.1 signbit (exactSum_of_wide_signed wide.1 _ _ wide.2 ?_), sumInt⟩
  rw [sumInt, shiftedInt, signbitInt, Int.sub_add_cancel]

section Narrow

variable {type dividendType : TypeRecord} {dividend : NodeId}

/-- A dividend of at most four bytes is extended to the wide type. -/
theorem extendBefore_evaluates (typed : (gen.nodes dividend).type = some dividendType)
    (positive : 0 < dividendType.size) (small : dividendType.size ≤ 4) (unsigned isSigned : Bool)
    (value : (Term.node dividend).value gen words = some n) :
    (extendBefore gen (.node dividend) (wideType unsigned 8) isSigned).Evaluates gen words
      (if isSigned then ((storageFormat dividendType).read n).signExtend 64
        else ((storageFormat dividendType).read n).setWidth 64) := by
  have wide := wideType_format unsigned
  have narrow : (storageFormat dividendType).bits < 64 := by
    rw [(storageFormat_of_size positive (by omega)).1]
    omega
  have format : (Term.node dividend).format gen = storageFormat dividendType := by
    simp [Term.format, Term.typeIn, typed]
  have size : ((wideType unsigned 8).size - termSize gen (.node dividend) : ℤ) * 8 ≠ 0 := by
    simp only [wideType, termSize, Term.typeIn, typed, Option.elim_some]
    omega
  have whole : (Term.node dividend).Evaluates gen words n := ⟨value, trivial⟩
  unfold extendBefore
  rw [if_neg size]
  cases isSigned with
  | false =>
    refine whole.operation (.constant _ _) ?_ trivial
    rw [format]
    exact integerValue_zeroextendi_of_wide wide.1 _ _ narrow
  | true =>
    refine whole.operation (.constant _ _) ?_ trivial
    rw [format]
    exact integerValue_signextendi_of_wide wide.1 _ _ narrow

/-- A quotient of the wide type is brought to a type of at most four bytes. -/
theorem narrowBefore_evaluates {value : Term} {quotient : BitVec 64} {unsigned : Bool}
    (typed : value.typeIn gen = some (wideType unsigned 8)) (positive : 0 < type.size)
    (small : type.size ≤ 4) (isSigned : Bool) (evaluates : value.Evaluates gen words quotient) :
    (narrowBefore gen value type isSigned).Evaluates gen words
      ((storageFormat type).canonicalize quotient) := by
  have wide := wideType_format unsigned
  have narrow : (storageFormat type).bits < 64 := by
    rw [(storageFormat_of_size positive (by omega)).1]
    omega
  have format : value.format gen = storageFormat (wideType unsigned 8) := by
    simp [Term.format, typed]
  have size : ¬((value.typeIn gen).isSome && termSize gen value ≤ type.size) = true := by
    simp only [termSize, typed, Option.elim_some, wideType, Option.isSome_some, Bool.true_and,
      decide_eq_true_eq]
    omega
  unfold narrowBefore
  rw [if_neg size]
  cases isSigned with
  | false =>
    refine evaluates.operation (.constant _ _) ?_ trivial
    rw [format]
    exact integerValue_zeroextendi_to_narrow wide.1 _ _ narrow
  | true =>
    refine evaluates.operation (.constant _ _) ?_ trivial
    rw [format]
    exact integerValue_signextendi_to_narrow wide.1 _ _ narrow

omit [Compiler] in
theorem unsignedQuotient_typeIn (magic : UnsignedDivMagic) (wide : TypeRecord) :
    (unsignedQuotient wide magic n64).typeIn gen = some wide := by
  unfold unsignedQuotient
  dsimp only
  split
  · rfl
  · split <;> rfl

end Narrow

/-- The divisor that the division by a constant is compiled for. An unsigned type
masks the payload. -/
def divisorNumber (type : TypeRecord) (payload : BitVec 64) : ℤ :=
  if type.isUnsigned then ((payload &&& lowMask (type.size * 8)).toNat : ℤ) else payload.toInt

section Division

variable {type dividendType : TypeRecord} {dividend divisor : NodeId} {node : IRNode}

/-- The divisor of an unsigned division as the 32 bits that the search is for. -/
theorem divisorNumber_unsigned (unsigned : type.isUnsigned = true) (small : type.size ≤ 4)
    (payload : BitVec 64) :
    divisorNumber type payload = ((payload &&& lowMask (type.size * 8)).setWidth 32).toNat := by
  have power : 2 ^ (type.size * 8) ≤ 2 ^ 32 := Nat.pow_le_pow_right (by omega) (by omega)
  rw [divisorNumber, if_pos unsigned, BitVec.toNat_setWidth, toNat_and_lowMask _ (by omega)]
  exact_mod_cast (Nat.mod_eq_of_lt (by omega)).symm

theorem unsignedDivision_exact (unsigned : type.isUnsigned = true) (positive : 0 < type.size)
    (small : type.size ≤ 4) (typed : (gen.nodes dividend).type = some dividendType)
    (sameSize : dividendType.size = type.size) {magic : UnsignedDivMagic}
    (divides : magic.Divides d) (value : (Term.node dividend).value gen words = some n) :
    ∃ result,
      (narrowBefore gen (unsignedQuotient (wideType true 8) magic
        (extendBefore gen (.node dividend) (wideType true 8) false)) type false).Evaluates gen
          words result ∧
        (storageFormat type).number result = ((storageFormat type).number n).tdiv d := by
  have format := storageFormat_of_size positive (show type.size ≤ 8 by omega)
  have dividendFormat := storageFormat_of_size (show 0 < dividendType.size by omega)
    (show dividendType.size ≤ 8 by omega)
  have power : 2 ^ (type.size * 8) ≤ 2 ^ 32 := Nat.pow_le_pow_right (by omega) (by omega)
  have extended := extendBefore_evaluates typed (by omega) (by omega) true false value
  have extendedNat : (((storageFormat dividendType).read n).setWidth 64).toNat =
      n.toNat % 2 ^ (type.size * 8) := by
    rw [BitVec.toNat_setWidth_of_le (storageFormat dividendType).fits, toNat_read,
      dividendFormat.1, sameSize]
  rcases unsignedQuotient_evaluates divides extended (by
    rw [if_neg (by simp), extendedNat]; omega) with ⟨quotient, evaluates, quotientNat⟩
  rw [if_neg (by simp), extendedNat] at quotientNat
  refine ⟨_, narrowBefore_evaluates (unsignedQuotient_typeIn magic _) positive small false
    evaluates, ?_⟩
  have atMost := Nat.div_le_self (n.toNat % 2 ^ (type.size * 8)) d
  rw [number_canonicalize, IntFormat.number, IntFormat.number, format.2, unsigned, if_pos rfl,
    if_pos rfl, toNat_read, toNat_read, format.1, quotientNat,
    Nat.mod_eq_of_lt (by omega), Int.ofNat_tdiv]

theorem signedDivision_exact (signed : type.isUnsigned = false) (positive : 0 < type.size)
    (small : type.size ≤ 4) (typed : (gen.nodes dividend).type = some dividendType)
    (sameSize : dividendType.size = type.size) {magic : SignedDivMagic} (large : 2 ≤ d)
    (divides : magic.Divides d) (value : (Term.node dividend).value gen words = some n) :
    ∃ result,
      (narrowBefore gen (signedQuotient (wideType false 8) magic
        (extendBefore gen (.node dividend) (wideType false 8) true)) type true).Evaluates gen
          words result ∧
        (storageFormat type).number result = ((storageFormat type).number n).tdiv d := by
  have format := storageFormat_of_size positive (show type.size ≤ 8 by omega)
  have dividendFormat := storageFormat_of_size (show 0 < dividendType.size by omega)
    (show dividendType.size ≤ 8 by omega)
  have power : (2 : ℤ) ^ (type.size * 8 - 1) ≤ 2 ^ 31 :=
    pow_le_pow_right₀ (by omega) (by omega)
  have double : (2 : ℕ) ^ (type.size * 8) = 2 * 2 ^ (type.size * 8 - 1) := by
    rw [← Nat.pow_succ']
    congr 1
    omega
  have numberEq : (storageFormat type).number n = n.toInt.bmod (2 ^ (type.size * 8)) := by
    rw [IntFormat.number, format.2, signed, if_neg (by simp), toInt_read, format.1]
  have least : -2 ^ (type.size * 8 - 1) ≤ (storageFormat type).number n := by
    have bound := Int.le_bmod (x := n.toInt) (m := 2 ^ (type.size * 8)) (Nat.two_pow_pos _)
    rw [double] at bound
    rw [numberEq, double]
    push_cast at bound ⊢
    omega
  have most : (storageFormat type).number n < 2 ^ (type.size * 8 - 1) := by
    have bound := Int.bmod_lt (x := n.toInt) (m := 2 ^ (type.size * 8)) (Nat.two_pow_pos _)
    rw [double] at bound
    rw [numberEq, double]
    push_cast at bound ⊢
    omega
  have extended := extendBefore_evaluates typed (by omega) (by omega) false true value
  have extendedInt : (((storageFormat dividendType).read n).signExtend 64).toInt =
      (storageFormat type).number n := by
    rw [BitVec.toInt_signExtend_of_le (storageFormat dividendType).fits, toInt_read,
      dividendFormat.1, sameSize, numberEq]
  rw [if_pos rfl] at extended
  rcases signedQuotient_evaluates divides extended (by omega) (by omega) with
    ⟨quotient, evaluates, quotientInt⟩
  rw [extendedInt] at quotientInt
  have size : (((storageFormat type).number n).tdiv d).natAbs ≤
      ((storageFormat type).number n).natAbs / 2 := by
    rw [Int.natAbs_tdiv]
    exact Nat.div_le_div_left large (by omega)
  refine ⟨_, narrowBefore_evaluates rfl positive small true evaluates, ?_⟩
  rw [number_canonicalize, ← quotientInt, IntFormat.number, format.2, signed, if_neg (by simp),
    toInt_read, format.1]
  apply Int.bmod_eq_of_le
  · rw [double]
    push_cast
    omega
  · rw [double]
    push_cast
    omega

end Division

section Examples

omit [Compiler]

/-- `unsigned int` with 4 bytes. -/
def unsignedIntType : TypeRecord where
  declarator := .primitive
  type := kTypeInt ||| kTypeUnsigned
  size := 4

/-- A load of an `unsigned int`, the constant 10 and their quotient. -/
def byTen : Generator where
  nodes
    | 0 => { opcode := .loadu32, type := some unsignedIntType }
    | 1 => { opcode := .const32, type := some unsignedIntType, ivalue := 10 }
    | _ => { opcode := .divi, type := some unsignedIntType, inputs := [0, 1] }
  basicBlocks := []
  entryBlock := 0

end Examples

end StrengthReduction

end DaveCC.Optimization
