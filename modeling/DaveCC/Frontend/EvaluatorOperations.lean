import DaveCC.Frontend.IntegerExpressions
import DaveCC.Optimization.SccpEvaluator

/-!
# The operations of the evaluator

For each operator, the operands on which the host's computation is the language's: those
for which nothing is undefined on the host and the result is a value of its type.
-/

namespace DaveCC.Frontend.ConstantExpression

open DaveCC.Arith DaveCC.Backend DaveCC.Optimization.Sccp IntFormat IROpcode Outcome

/-- An outcome is the value that the language gives; it is a failure when there is none. -/
def Outcome.Matches (outcome : Outcome) (value : Option Word) : Prop :=
  match outcome with
  | .rejected => value = none
  | .undefined => False
  | .value word => value = some word

variable {value : Option Word}

@[simp] theorem Outcome.matches_value {word : Word} :
    (Outcome.value word).Matches value ↔ value = some word :=
  Iff.rfl

section Formats

theorem canonicalize_canonicalize {format other : IntFormat} (bits : format.bits = other.bits)
    (word : Word) : format.canonicalize (other.canonicalize word) = format.canonicalize word := by
  obtain ⟨width, isUnsigned, positive, fits⟩ := format
  cases bits
  have read := other.read_canonicalize word
  simp only [canonicalize, IntFormat.read] at read ⊢
  rw [read]

theorem format_eq {format other : IntFormat} (bits : format.bits = other.bits)
    (sign : format.isUnsigned = other.isUnsigned) : format = other := by
  obtain ⟨width, isUnsigned, positive, fits⟩ := format
  cases bits
  cases sign
  rfl

theorem canonicalize_truth {format : IntFormat} (room : format.isUnsigned = true ∨ 1 < format.bits)
    (condition : Bool) : format.canonicalize (truth condition) = truth condition := by
  cases room with
  | inr wide => exact canonical_truth wide condition
  | inl unsigned =>
    apply BitVec.eq_of_toNat_eq
    have small : (truth condition).toNat < 2 ^ format.bits := by
      have positive := Nat.one_lt_two_pow format.positive.ne'
      cases condition with
      | false => exact Nat.two_pow_pos _
      | true => exact positive
    rw [(format.canonical_canonicalize _).toNat_eq unsigned, read_canonicalize,
      toNat_read, Nat.mod_eq_of_lt small]

end Formats

section Numbers

theorem ofInt_mul_two_pow (word : Word) (count : Nat) :
    BitVec.ofInt 64 (word.toInt * 2 ^ count) = word <<< count := by
  have power : (2 : Int) ^ count = (2 ^ count : Nat) := (Int.natCast_pow 2 count).symm
  have twoPow : BitVec.ofNat 64 (2 ^ count) = BitVec.twoPow 64 count :=
    BitVec.eq_of_toNat_eq (BitVec.toNat_twoPow 64 count).symm
  rw [BitVec.ofInt_mul, BitVec.ofInt_toInt, BitVec.shiftLeft_eq_mul_twoPow, power,
    BitVec.ofInt_natCast, twoPow]

theorem fitsHost_neg (word : Word) : FitsHost (-word.toInt) ↔ word ≠ BitVec.intMin 64 := by
  have lower := @BitVec.le_toInt 64 word
  have upper := @BitVec.toInt_lt 64 word
  rw [FitsHost, Ne, ← BitVec.toInt_inj, BitVec.toInt_intMin]
  omega

theorem hostCount_of_countBelow {format : IntFormat} {count : Word}
    (below : countBelow format count) : HostCount count := by
  have upper : (format.bits : Int) ≤ 64 := Int.ofNat_le.mpr format.fits
  exact ⟨below.1, Int.lt_of_lt_of_le below.2 upper⟩

/-- Only a failure is right where there is no value. -/
theorem not_matches_none {outcome : Outcome} {change : Word → Word}
    (accepted : outcome ≠ .rejected) : ¬(outcome.map change).Matches none := by
  cases outcome with
  | rejected => exact absurd rfl accepted
  | undefined => exact id
  | value word => exact nofun

theorem hostInt_ne_rejected (number : Int) : hostInt number ≠ .rejected := by
  rw [hostInt]
  split <;> exact nofun

theorem msb_read_eq {format : IntFormat} {word : Word} (canonical : format.Canonical word)
    (signed : format.isUnsigned = false) : word.msb = (format.read word).msb := by
  rw [BitVec.msb_eq_toInt, BitVec.msb_eq_toInt, canonical.toInt_eq signed]

end Numbers

variable [Compiler]

section Types

variable {type left right : TypeRecord}

theorem normalizeIntegerValueForType_eq (value : Word) (type : TypeRecord) :
    normalizeIntegerValueForType value type = (formatOf type).canonicalize value :=
  normalizeIntegerValue_eq value (some type)

theorem Integer.format (integer : Integer type) :
    type.isIntegral = true ∧ (formatOf type).isUnsigned = type.isUnsigned ∧
      (formatOf type).bits = bitWidthOf type := by
  have present := integer.1
  rw [TypeRecord.intFormat?] at present
  split at present
  · next valid =>
      have format : formatOf type = ⟨type.valueBits, type.isUnsigned, valid.2.1, valid.2.2⟩ := by
        rw [formatOf, wordFormat, Option.bind_some, TypeRecord.intFormat?, dif_pos valid,
          Option.getD_some]
      rw [format]
      exact ⟨valid.1, rfl, rfl⟩
  · cases present

theorem convertTo_arithmetic (arithmetic : Arithmetic type) (value : Word) :
    convertTo type value = (formatOf type).canonicalize value := by
  rw [convertTo, arithmetic.2, if_neg Bool.false_ne_true]

theorem isUnsigned_of_isBool (isBool : type.isBool = true) : type.isUnsigned = true := by
  rw [TypeRecord.isBool, TypeRecord.isKind, Bool.and_eq_true] at isBool
  have bits : type.hasType (kTypeUnsigned ||| kTypeBool) = true := by
    have isBool := isBool.2
    rw [TypeLevel.hasType, bne_iff_ne] at isBool ⊢
    intro zero
    apply isBool
    apply Nat.eq_of_testBit_eq
    intro bit
    have clear := congrArg (Nat.testBit · bit) zero
    simp only [Nat.testBit_and, Nat.testBit_or, Nat.zero_testBit] at clear ⊢
    cases boolean : kTypeBool.testBit bit with
    | false => rw [Bool.and_false]
    | true => rw [boolean, Bool.or_true] at clear; exact clear
  rw [TypeRecord.isUnsigned, isBool.1, bits, Bool.and_true, Bool.or_true]

/-- A truth value, normalised for any type, is its conversion. -/
theorem normalize_truth (integer : Integer type) (condition : Bool) :
    normalizeIntegerValueForType (truth condition) type = convertTo type (truth condition) := by
  rw [normalizeIntegerValueForType_eq, convertTo]
  cases isBool : type.isBool with
  | false => rw [if_neg Bool.false_ne_true]
  | true =>
    have unsigned := integer.format.2.1.trans (isUnsigned_of_isBool isBool)
    rw [if_pos rfl, canonicalize_truth (.inl unsigned)]
    cases condition <;> rfl

theorem keeps_truth (logical : Logical type) (condition : Bool) : Keeps type (truth condition) := by
  rw [Keeps, ← normalize_truth logical.1, normalizeIntegerValueForType_eq,
    canonicalize_truth (.inr logical.2)]

theorem typeIsUnsignedIntegral_eq (arithmetic : Arithmetic type) :
    typeIsUnsignedIntegral type = (formatOf type).isUnsigned := by
  rw [typeIsUnsignedIntegral, arithmetic.1.format.1, arithmetic.1.format.2.1, arithmetic.2,
    Bool.not_false, Bool.and_true, Bool.true_and]

/-- The type that operands are converted to, or both are signed. -/
theorem commonFormat_cases (leftArithmetic : Arithmetic left) (rightArithmetic : Arithmetic right)
    (bits : (formatOf left).bits = (formatOf right).bits) :
    (∃ type, binaryUnsignedIntegerConversionType left right = some type ∧
        formatOf type = commonFormat left right ∧
        (commonFormat left right).isUnsigned = true) ∨
      (binaryUnsignedIntegerConversionType left right = none ∧
        formatOf left = commonFormat left right ∧ formatOf right = commonFormat left right ∧
        (commonFormat left right).isUnsigned = false) := by
  have leftSign := typeIsUnsignedIntegral_eq leftArithmetic
  have rightSign := typeIsUnsignedIntegral_eq rightArithmetic
  have sign : (commonFormat left right).isUnsigned =
      (typeIsUnsignedIntegral left || typeIsUnsignedIntegral right) := rfl
  have width : (commonFormat left right).bits = (formatOf left).bits := rfl
  rw [binaryUnsignedIntegerConversionType]
  cases isLeft : typeIsUnsignedIntegral left <;> cases isRight : typeIsUnsignedIntegral right <;>
    rw [isLeft] at leftSign sign <;> rw [isRight] at rightSign sign
  · exact .inr ⟨rfl, format_eq rfl (leftSign.symm.trans sign.symm),
      format_eq (bits.symm.trans width.symm) (rightSign.symm.trans sign.symm), sign⟩
  · exact .inl ⟨right, rfl, format_eq (bits.symm.trans width.symm) (rightSign.symm.trans sign.symm),
      sign⟩
  · exact .inl ⟨left, rfl, format_eq rfl (leftSign.symm.trans sign.symm), sign⟩
  · have leftFormat : formatOf left = commonFormat left right :=
      format_eq rfl (leftSign.symm.trans sign.symm)
    have rightFormat : formatOf right = commonFormat left right :=
      format_eq (bits.symm.trans width.symm) (rightSign.symm.trans sign.symm)
    refine .inl ⟨if right.size ≤ left.size then left else right, rfl, ?_, sign⟩
    split
    · exact leftFormat
    · exact rightFormat

end Types

section Arithmetic

variable {type subType : TypeRecord} {op : BinaryOp}

/-- A number that wraps to a word is computed rightly when it is in the host's range. -/
theorem matches_hostInt {number : Int} {word : Word} (wraps : BitVec.ofInt 64 number = word) :
    ((hostInt number).map (normalizeIntegerValueForType · type)).Matches
        (some ((formatOf type).canonicalize word)) ↔ FitsHost number := by
  rw [hostInt]
  split
  · next fits =>
      rw [Outcome.map, matches_value, normalizeIntegerValueForType_eq, wraps]
      exact iff_of_true rfl fits
  · next overflows => exact iff_of_false id overflows

theorem matches_uminus (bits : (formatOf type).bits = (formatOf subType).bits) (word : Word) :
    (evaluateUnary .uminus type word).Matches
        (some ((formatOf type).canonicalize
          ((formatOf subType).extend (-(formatOf subType).read word)))) ↔
      word ≠ BitVec.intMin 64 := by
  rw [← read_neg, ← canonicalize, canonicalize_canonicalize bits,
    evaluateUnary, matches_hostInt, fitsHost_neg]
  rw [BitVec.ofInt_neg, BitVec.ofInt_toInt]

/-- The unary operators. -/
theorem evaluateUnary_matches_iff (arithmetic : Arithmetic type)
    (bits : (formatOf type).bits = (formatOf subType).bits) (op : UnaryOp) (word : Word) :
    (evaluateUnary op type word).Matches
        ((op.opcode.integerValue (formatOf subType) (formatOf subType) word 0).map
          (convertTo type)) ↔
      (op = .uminus → word ≠ BitVec.intMin 64) := by
  have convert : convertTo type = (formatOf type).canonicalize :=
    funext (convertTo_arithmetic arithmetic)
  cases op with
  | uminus =>
    simp only [UnaryOp.opcode, integerValue, Option.map_some, convert, forall_const]
    exact matches_uminus bits word
  | uplus =>
    simp [UnaryOp.opcode, integerValue, convert, evaluateUnary, Outcome.map, normalizeIntegerValueForType_eq, matches_value, canonicalize_canonicalize bits]
  | onescomp =>
    have complement := canonicalize_canonicalize bits (~~~word)
    rw [canonicalize, canonicalize, read_not, ← canonicalize] at complement
    simp only [UnaryOp.opcode, integerValue, Option.map_some, convert, evaluateUnary, Outcome.map,
      normalizeIntegerValueForType_eq, matches_value, reduceCtorEq, false_implies, iff_true]
    exact congrArg some complement

variable {left right : TypeRecord} {a b : Word}

/-- Arithmetic that wraps at the operands' width, and the operations on bits. -/
theorem evaluateBinary_wrapping (typed : op.WellTyped type left right)
    (wraps : op = .plus ∨ op = .minus ∨ op = .mult ∨ op = .and ∨ op = .bitor ∨ op = .exor) :
    (evaluateBinary op type left right a b).Matches
        ((op.opcode.integerValue (op.format left right) (op.format left right) a b).map
          (convertTo type)) ↔
      op.Kept type left right a b := by
  have bits : (formatOf type).bits = (commonFormat left right).bits := typed.2.1
  have convert : convertTo type = (formatOf type).canonicalize :=
    funext (convertTo_arithmetic typed.1.1)
  have extended (word : Word) : (formatOf type).canonicalize
      ((commonFormat left right).extend ((commonFormat left right).read word)) =
        (formatOf type).canonicalize word := canonicalize_canonicalize bits word
  have bitwise (word : Word) : ((Outcome.value word).map (normalizeIntegerValueForType · type)).Matches
      (some ((formatOf type).canonicalize word)) := by
    rw [Outcome.map, matches_value, normalizeIntegerValueForType_eq]
  have format : op.format left right = commonFormat left right := by
    rcases wraps with rfl | rfl | rfl | rfl | rfl | rfl <;> rfl
  rw [format]
  rcases wraps with rfl | rfl | rfl | rfl | rfl | rfl <;>
    simp only [BinaryOp.opcode, integerValue, Option.map_some, convert, evaluateBinary,
      BinaryOp.Kept]
  · rw [← read_add, extended]
    exact matches_hostInt (by rw [BitVec.ofInt_add, BitVec.ofInt_toInt, BitVec.ofInt_toInt])
  · rw [← read_sub, extended]
    exact matches_hostInt (by
      rw [Int.sub_eq_add_neg, BitVec.ofInt_add, BitVec.ofInt_neg, BitVec.ofInt_toInt,
        BitVec.ofInt_toInt, BitVec.sub_eq_add_neg])
  · rw [← read_mul, extended]
    exact matches_hostInt (by rw [BitVec.ofInt_mul, BitVec.ofInt_toInt, BitVec.ofInt_toInt])
  · rw [iff_true, IntFormat.read, IntFormat.read, ← BitVec.setWidth_and]
    exact (extended (a &&& b)).symm ▸ bitwise (a &&& b)
  · rw [iff_true, IntFormat.read, IntFormat.read, ← BitVec.setWidth_or]
    exact (extended (a ||| b)).symm ▸ bitwise (a ||| b)
  · rw [iff_true, IntFormat.read, IntFormat.read, ← BitVec.setWidth_xor]
    exact (extended (a ^^^ b)).symm ▸ bitwise (a ^^^ b)

/-- Division and remainder, of which `unsignedOp` and `signedOp` are the host's operators
and `meaning` is the language's. -/
theorem evaluateDivision_matches_iff {unsignedOp signedOp : Word → Word → Word}
    (arithmetic : Arithmetic type ∧ Arithmetic left ∧ Arithmetic right)
    (bits : (formatOf type).bits = (formatOf left).bits)
    (operandBits : (formatOf left).bits = (formatOf right).bits)
    {meaning : BitVec (commonFormat left right).bits}
    (unsigned : ∀ a' b', (commonFormat left right).Canonical a' →
      (commonFormat left right).Canonical b' → (commonFormat left right).isUnsigned =
      true → (commonFormat left right).read a' = (commonFormat left right).read a →
      (commonFormat left right).read b' = (commonFormat left right).read b →
      (commonFormat left right).read (unsignedOp a' b') = meaning)
    (signed : (commonFormat left right).Canonical a → (commonFormat left right).Canonical b →
      (commonFormat left right).isUnsigned = false → (commonFormat left right).read (signedOp a b)
      = meaning) (leftCanonical : (formatOf left).Canonical a)
    (rightCanonical : (formatOf right).Canonical b) :
    (evaluateDivision unsignedOp signedOp left right a b).Matches
        ((if (commonFormat left right).read b = 0 then none
          else some ((commonFormat left right).extend meaning)).map (convertTo type)) ↔
      DivisionKept unsignedOp signedOp type (commonFormat left right) a b := by
  have convert : convertTo type = (formatOf type).canonicalize :=
    funext (convertTo_arithmetic arithmetic.1)
  have width : (formatOf type).bits = (commonFormat left right).bits := bits
  have zero : (commonFormat left right).read b = 0 ↔ b = 0 := by
    have widths : (commonFormat left right).bits = (formatOf right).bits := operandBits
    have read : (commonFormat left right).read b = 0 ↔ (formatOf right).read b = 0 := by
      rw [← BitVec.toNat_inj, ← BitVec.toNat_inj, toNat_read, toNat_read, widths]
    rw [read, rightCanonical.read_eq_zero_iff]
  -- The result is right when it is a value of the node's type as it stands.
  have kept (word : Word) (computed : (commonFormat left right).read word = meaning) :
      (Outcome.value word).Matches
          (some ((formatOf type).canonicalize ((commonFormat left right).extend meaning))) ↔
        (formatOf type).Canonical word := by
    rw [← computed, ← canonicalize, canonicalize_canonicalize width,
      matches_value, Option.some.injEq]
    rfl
  by_cases isZero : b = 0
  · rw [evaluateDivision, if_pos isZero, if_pos (zero.mpr isZero), DivisionKept]
    exact iff_of_true rfl fun nonzero => absurd isZero nonzero
  · rw [evaluateDivision, if_neg isZero, if_neg (mt zero.mp isZero), Option.map_some, convert,
      DivisionKept, hostDivision]
    cases commonFormat_cases arithmetic.2.1 arithmetic.2.2 operandBits with
    | inl isUnsigned =>
      obtain ⟨target, isTarget, format, sign⟩ := isUnsigned
      have read (word : Word) := (commonFormat left right).read_canonicalize word
      have nonzero : (commonFormat left right).canonicalize b ≠ 0 := by
        intro isZero'
        have atZero := (commonFormat left right).canonical_canonicalize b
        rw [← atZero.read_eq_zero_iff, read, zero] at isZero'
        exact isZero isZero'
      have computed := unsigned _ _ ((commonFormat left right).canonical_canonicalize a)
        ((commonFormat left right).canonical_canonicalize b) sign (read a) (read b)
      simp only [isTarget, normalizeIntegerValueForType_eq, format, if_neg nonzero, sign,
        Bool.true_eq_false, false_implies, true_and, if_true, ne_eq, isZero, not_false_eq_true,
        forall_const]
      exact kept _ computed
    | inr isSigned =>
      obtain ⟨isNone, leftFormat, rightFormat, sign⟩ := isSigned
      have computed := signed (leftFormat ▸ leftCanonical) (rightFormat ▸ rightCanonical) sign
      simp only [isNone, sign, forall_const, Bool.false_eq_true, if_false, ne_eq, isZero,
        not_false_eq_true]
      split
      · next overflows => exact iff_of_false id fun right => right.1 overflows
      · next defined =>
          rw [kept _ computed]
          exact ⟨fun canonical => ⟨defined, canonical⟩, And.right⟩

/-- Division and remainder as the evaluator computes them. -/
theorem evaluateBinary_division (typed : op.WellTyped type left right)
    (divides : op = .div ∨ op = .mod)
    (leftCanonical : (formatOf left).Canonical a) (rightCanonical : (formatOf right).Canonical b) :
    (evaluateBinary op type left right a b).Matches
        ((op.opcode.integerValue (op.format left right) (op.format left right) a b).map
          (convertTo type)) ↔
      op.Kept type left right a b := by
  have operandBits : (formatOf left).bits = (formatOf right).bits := by
    apply typed.2.2.1
    cases divides with
    | inl isDiv => rw [isDiv]; rfl
    | inr isMod => rw [isMod]; rfl
  cases divides with
  | inl isDiv =>
    subst isDiv
    apply evaluateDivision_matches_iff typed.1 typed.2.1 operandBits _ _ leftCanonical
      rightCanonical
    · intro a' b' leftCanonical rightCanonical unsigned readLeft readRight
      rw [read_udiv leftCanonical rightCanonical unsigned, readLeft, readRight]
      exact (if_pos unsigned).symm
    · intro leftCanonical rightCanonical signed
      rw [read_sdiv leftCanonical rightCanonical signed]
      exact (if_neg (ne_true_of_eq_false signed)).symm
  | inr isMod =>
    subst isMod
    apply evaluateDivision_matches_iff typed.1 typed.2.1 operandBits _ _ leftCanonical
      rightCanonical
    · intro a' b' leftCanonical rightCanonical unsigned readLeft readRight
      rw [read_umod leftCanonical rightCanonical unsigned, readLeft, readRight]
      exact (if_pos unsigned).symm
    · intro leftCanonical rightCanonical signed
      rw [read_srem leftCanonical rightCanonical signed]
      exact (if_neg (ne_true_of_eq_false signed)).symm

end Arithmetic

/-! ## Shifts -/

section Shifts

variable {type left right : TypeRecord} {a b : Word}

theorem evaluate_lshift (typed : BinaryOp.lshift.WellTyped type left right) :
    (evaluateBinary .lshift type left right a b).Matches
        ((IROpcode.lsli.integerValue (formatOf left) (formatOf left) a b).map (convertTo type)) ↔
      BinaryOp.lshift.Kept type left right a b := by
  have convert : convertTo type = (formatOf type).canonicalize :=
    funext (convertTo_arithmetic typed.1.1)
  rw [integerValue, BinaryOp.Kept, evaluateBinary]
  by_cases below : countBelow (formatOf left) b
  · have shifted : (formatOf left).extend ((formatOf left).read a <<< b.toNat) =
        (formatOf left).canonicalize (a <<< b.toNat) := by
      rw [canonicalize, read_shiftLeft]
    rw [if_pos below, Option.map_some, convert, shifted, canonicalize_canonicalize typed.2.1]
    by_cases nonnegative : 0 ≤ a.toInt
    · rw [if_pos ⟨hostCount_of_countBelow below, nonnegative⟩,
        matches_hostInt (ofInt_mul_two_pow a b.toNat)]
      exact ⟨fun fits => ⟨below, nonnegative, fits⟩, fun kept => kept.2.2⟩
    · rw [if_neg (fun defined => nonnegative defined.2)]
      exact iff_of_false id fun kept => nonnegative kept.2.1
  · rw [if_neg below]
    apply iff_of_false
    · apply not_matches_none
      split
      · exact hostInt_ne_rejected _
      · exact nofun
    · exact fun kept => below kept.1

theorem evaluate_rshifta (typed : BinaryOp.rshifta.WellTyped type left right)
    (canonical : (formatOf left).Canonical a) :
    (evaluateBinary .rshifta type left right a b).Matches
        ((IROpcode.asri.integerValue (formatOf left) (formatOf left) a b).map (convertTo type)) ↔
      BinaryOp.rshifta.Kept type left right a b := by
  have convert : convertTo type = (formatOf type).canonicalize :=
    funext (convertTo_arithmetic typed.1.1)
  have signed : (formatOf left).isUnsigned = false :=
    typed.1.2.1.1.format.2.1.trans (typed.2.2.2.1 rfl)
  rw [integerValue, BinaryOp.Kept, evaluateBinary]
  by_cases below : countBelow (formatOf left) b
  · have shifted : (formatOf left).extend (((formatOf left).read a).sshiftRight b.toNat) =
        (formatOf left).canonicalize (a.sshiftRight b.toNat) := by
      rw [canonicalize, (read_sshiftRight_iff canonical).mpr (.inr (msb_read_eq canonical signed))]
    rw [if_pos below, Option.map_some, convert, shifted, canonicalize_canonicalize typed.2.1,
      if_pos (hostCount_of_countBelow below)]
    simp only [Outcome.map, matches_value, normalizeIntegerValueForType_eq, below]
  · rw [if_neg below]
    apply iff_of_false
    · apply not_matches_none
      split <;> exact nofun
    · exact below

theorem evaluate_rshiftl (typed : BinaryOp.rshiftl.WellTyped type left right)
    (canonical : (formatOf left).Canonical a) :
    (evaluateBinary .rshiftl type left right a b).Matches
        ((IROpcode.lsri.integerValue (formatOf left) (formatOf left) a b).map (convertTo type)) ↔
      BinaryOp.rshiftl.Kept type left right a b := by
  have convert : convertTo type = (formatOf type).canonicalize :=
    funext (convertTo_arithmetic typed.1.1)
  have unsigned : (formatOf left).isUnsigned = true :=
    typed.1.2.1.1.format.2.1.trans (typed.2.2.2.2 rfl)
  rw [integerValue, BinaryOp.Kept, evaluateBinary]
  by_cases below : countBelow (formatOf left) b
  · have clear : b.toNat = 0 ∨ (formatOf left).bits = 64 ∨ a.msb = false := by
      cases Nat.eq_or_lt_of_le (formatOf left).fits with
      | inl wide => exact .inr (.inl wide)
      | inr narrow => exact .inr (.inr (canonical.msb_eq_false unsigned narrow))
    have shifted : (formatOf left).extend ((formatOf left).read a >>> b.toNat) =
        (formatOf left).canonicalize (a >>> b.toNat) := by
      rw [canonicalize, (read_ushiftRight_iff canonical (countBelow_toNat below)).mpr clear]
    rw [if_pos below, Option.map_some, convert, shifted, canonicalize_canonicalize typed.2.1,
      if_pos (hostCount_of_countBelow below), matches_value, Option.some.injEq]
    exact ⟨fun canonical => ⟨below, canonical⟩, And.right⟩
  · rw [if_neg below]
    apply iff_of_false
    · split
      · exact nofun
      · exact id
    · exact fun kept => below kept.1

end Shifts

section Binary

variable {type left right : TypeRecord} {op : BinaryOp} {a b : Word}

/-- The binary operators. -/
theorem evaluateBinary_matches_iff (typed : op.WellTyped type left right)
    (leftCanonical : (formatOf left).Canonical a) (rightCanonical : (formatOf right).Canonical b) :
    (evaluateBinary op type left right a b).Matches
        ((op.opcode.integerValue (op.format left right) (op.format left right) a b).map
          (convertTo type)) ↔
      op.Kept type left right a b := by
  cases op with
  | plus | minus | mult | and | bitor | exor => exact evaluateBinary_wrapping typed (by decide)
  | div | mod => exact evaluateBinary_division typed (by decide) leftCanonical rightCanonical
  | lshift => exact evaluate_lshift typed
  | rshifta => exact evaluate_rshifta typed leftCanonical
  | rshiftl => exact evaluate_rshiftl typed leftCanonical

end Binary

section Comparisons

variable {type left right : TypeRecord} {a b : Word}

omit [Compiler] in
theorem compare_integerValue {format result : IntFormat} (leftCanonical : format.Canonical a)
    (rightCanonical : format.Canonical b) (op : CompareOp) :
    op.opcode.integerValue result format a b = some (truth (op.holds format.isUnsigned a b)) := by
  cases op with
  | less => exact congrArg IROpcode.ofTruth (leftCanonical.lt_eq rightCanonical).symm
  | lesseq => exact congrArg IROpcode.ofTruth (leftCanonical.le_eq rightCanonical).symm
  | greater => exact congrArg IROpcode.ofTruth (rightCanonical.lt_eq leftCanonical).symm
  | greatereq => exact congrArg IROpcode.ofTruth (rightCanonical.le_eq leftCanonical).symm
  | equal => exact congrArg IROpcode.ofTruth (leftCanonical.beq_eq rightCanonical).symm
  | noteq =>
    exact congrArg (fun same => IROpcode.ofTruth !same) (leftCanonical.beq_eq rightCanonical).symm

omit [Compiler] in
/-- A comparison reads its operands at their format. -/
theorem compare_canonicalize (format result : IntFormat) (op : CompareOp) :
    op.opcode.integerValue result format (format.canonicalize a) (format.canonicalize b) =
      op.opcode.integerValue result format a b := by
  cases op <;>
    simp only [CompareOp.opcode, integerValue, read_canonicalize]

/-- The comparisons. -/
theorem evaluateCompare_eq (logical : Logical type) (leftArithmetic : Arithmetic left)
    (rightArithmetic : Arithmetic right) (bits : (formatOf left).bits = (formatOf right).bits)
    (leftCanonical : (formatOf left).Canonical a) (rightCanonical : (formatOf right).Canonical b)
    (op : CompareOp) :
    (op.opcode.integerValue (formatOf type) (commonFormat left right) a b).map (convertTo type) =
      some (evaluateCompare op left right a b) := by
  have keeps (condition : Bool) : convertTo type (truth condition) = truth condition :=
    keeps_truth logical condition
  rw [evaluateCompare]
  cases commonFormat_cases leftArithmetic rightArithmetic bits with
  | inl isUnsigned =>
    obtain ⟨target, isTarget, format, sign⟩ := isUnsigned
    rw [← compare_canonicalize, compare_integerValue
      ((commonFormat left right).canonical_canonicalize a)
      ((commonFormat left right).canonical_canonicalize b), sign, Option.map_some, keeps]
    simp only [isTarget, normalizeIntegerValueForType_eq, format]
  | inr isSigned =>
    obtain ⟨isNone, leftFormat, rightFormat, sign⟩ := isSigned
    rw [compare_integerValue (leftFormat ▸ leftCanonical) (rightFormat ▸ rightCanonical), sign,
      Option.map_some, keeps]
    simp only [isNone]

end Comparisons

section Bits

omit [Compiler]

theorem evaluateBitCount_eq {width : Nat} (fits : width ≤ 64) (op : BitCountOp) (word : Word) :
    evaluateBitCount op width word = .value (op.count width word) := by
  have masked (index : Nat) (below : index < width) :
      (word &&& widthMask width).getLsbD index = (word.setWidth width).getLsbD index := by
    rw [getLsbD_and_widthMask, BitVec.getLsbD_setWidth]
  cases op with
  | clz =>
    simp only [evaluateBitCount, if_neg (Nat.not_lt.mpr fits), BitCountOp.count, leadingZeros,
      countLeadingZeros_eq _ fits, clearFromTop_congr masked]
  | ctz =>
    have counted : clearFrom (word &&& widthMask width).getLsbD 0 width =
        clearFrom (word.setWidth width).getLsbD 0 width :=
      clearFrom_congr fun index below => masked index (by rwa [Nat.zero_add] at below)
    simp only [evaluateBitCount, Nat.not_lt.mpr fits, false_and, if_false, BitCountOp.count,
      trailingZeros, Nat.min_eq_left fits]
    rw [countTrailingZeros_eq _ (by rwa [Nat.zero_add]), Nat.zero_add, counted]
  | popcount =>
    have low : word &&& widthMask width = (word.setWidth width).setWidth 64 := by
      apply BitVec.eq_of_getLsbD_eq
      intro index bound
      rw [getLsbD_and_widthMask, BitVec.getLsbD_setWidth, BitVec.getLsbD_setWidth,
        decide_eq_true bound, Bool.true_and]
    simp only [evaluateBitCount, BitCountOp.count]
    rw [countOnes_eq _ (populationCount_le _), low, populationCount,
      BitVec.toNat_setWidth_of_le fits, populationCount]

theorem canonical_and_widthMask {format : IntFormat} (unsigned : format.isUnsigned = true)
    (word : Word) : format.Canonical (word &&& widthMask format.bits) := by
  have extended : word &&& widthMask format.bits = format.canonicalize word := by
    rw [and_widthMask, canonicalize, IntFormat.extend, if_pos unsigned]
  rw [extended]
  exact format.canonical_canonicalize word

theorem canonical_rotateInteger {format : IntFormat} (unsigned : format.isUnsigned = true)
    (toLeft : Bool) (value amount : Word) :
    format.Canonical (rotateInteger toLeft format.bits value amount) := by
  dsimp only [rotateInteger]
  generalize Int.toNat _ = shift
  split
  · exact canonical_and_widthMask unsigned value
  · exact canonical_and_widthMask unsigned _

/-- The rotations. -/
theorem evaluateRotate_eq {format : IntFormat} (unsigned : format.isUnsigned = true)
    (toLeft : Bool) (value amount : Word) :
    ∃ word, evaluateRotate toLeft format.bits value amount = .value word ∧
      (rotateOpcode toLeft).integerValue format format value amount = some word := by
  have defined : ¬(format.bits = 0 ∨ (64 < format.bits ∧ amount.toInt.emod format.bits ≠ 0)) := by
    intro undefined
    cases undefined with
    | inl empty => exact format.positive.ne' empty
    | inr wide => exact Nat.not_lt.mpr format.fits wide.1
  have canonical := canonical_rotateInteger unsigned toLeft value amount
  rw [IntFormat.Canonical, read_rotateInteger] at canonical
  refine ⟨rotateInteger toLeft format.bits value amount, ?_, ?_⟩
  · simp only [evaluateRotate, if_neg defined]
  · cases toLeft with
    | true => exact congrArg some canonical
    | false => exact congrArg some canonical

end Bits

end DaveCC.Frontend.ConstantExpression
