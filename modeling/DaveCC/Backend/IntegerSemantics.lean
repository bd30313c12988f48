import DaveCC.Arith.BitCounting
import DaveCC.Arith.IntFormat
import DaveCC.Backend.IR

/-!
# The meaning of integer operations

The value of an integer opcode, stated at the width and signedness of its types
and independently of the passes. Operands and results are words in canonical
form for their types. An operation without a value, such as a division by zero
or a shift by more than the width, has none.
-/

namespace DaveCC.Backend

open DaveCC.Arith

/-- The bits of an integer's value: the declared width of a `_BitInt`, the storage
of every other type. -/
def TypeRecord.valueBits (type : TypeRecord) : Nat :=
  if type.isBitInt then type.bitWidth else type.size * 8

/-- The format of an integer type whose value fits a word. -/
def TypeRecord.intFormat? [Compiler] (type : TypeRecord) : Option IntFormat :=
  if valid : type.isIntegral = true ∧ 0 < type.valueBits ∧ type.valueBits ≤ 64 then
    some
      { bits := type.valueBits
        isUnsigned := type.isUnsigned
        positive := valid.2.1
        fits := valid.2.2 }
  else none

/-- The format of addresses and of every other value without an integer type. -/
def addressFormat : IntFormat :=
  { bits := 64, isUnsigned := true, positive := Nat.succ_pos 63, fits := Nat.le_add_right 64 0 }

/-- The format of the word that holds a node's value. -/
def wordFormat [Compiler] (type : Option TypeRecord) : IntFormat :=
  (type.bind TypeRecord.intFormat?).getD addressFormat

/-- A `_BitInt` has a width of at least one bit that its storage can hold. -/
def TypeRecord.WellFormed (type : TypeRecord) : Prop :=
  type.isBitInt = true → 0 < type.bitWidth ∧ type.bitWidth ≤ type.size * 8 ∧ type.size ≤ 8

namespace IROpcode

/-- A shift count below the width. -/
def countBelow (format : IntFormat) (count : BitVec 64) : Prop :=
  0 ≤ count.toInt ∧ count.toInt < format.bits

instance (format : IntFormat) (count : BitVec 64) : Decidable (countBelow format count) :=
  inferInstanceAs (Decidable (_ ∧ _))

/-- A truth value as an integer. -/
def ofTruth (condition : Bool) : Option (BitVec 64) :=
  some (if condition then 1 else 0)

/-- The value of an operation whose result has format `result` and whose first
operand has format `left`. A division, a remainder and a shift have their left
operand's format, and a comparison has operands of one format. -/
def integerValue (opcode : IROpcode) (result left : IntFormat) (a b : BitVec 64) :
    Option (BitVec 64) :=
  match opcode with
  | .movi | .mova => some (result.canonicalize a)
  | .addi | .adda => some (result.extend (result.read a + result.read b))
  | .subi | .suba => some (result.extend (result.read a - result.read b))
  | .muli => some (result.extend (result.read a * result.read b))
  | .divi =>
    if result.read b = 0 then none
    else some (result.extend (if result.isUnsigned
      then result.read a / result.read b
      else (result.read a).sdiv (result.read b)))
  | .modi =>
    if result.read b = 0 then none
    else some (result.extend (if result.isUnsigned
      then result.read a % result.read b
      else (result.read a).srem (result.read b)))
  | .andi => some (result.extend (result.read a &&& result.read b))
  | .ori => some (result.extend (result.read a ||| result.read b))
  | .xori => some (result.extend (result.read a ^^^ result.read b))
  | .lsli =>
    if countBelow result b then some (result.extend (result.read a <<< b.toNat))
    else none
  | .lsri =>
    if countBelow result b then some (result.extend (result.read a >>> b.toNat))
    else none
  | .asri =>
    if countBelow result b then
      some (result.extend ((result.read a).sshiftRight b.toNat))
    else none
  | .rotli =>
    some (result.extend ((result.read a).rotateLeft (b.toInt.emod result.bits).toNat))
  | .rotri =>
    some (result.extend ((result.read a).rotateRight (b.toInt.emod result.bits).toNat))
  | .clzi => some (result.extend (.ofNat _ (leadingZeros (left.read a))))
  | .ctzi => some (result.extend (.ofNat _ (trailingZeros (left.read a))))
  | .popcounti => some (result.extend (.ofNat _ (populationCount (left.read a))))
  | .zeroextendi =>
    -- Between formats of one width the right operand is a mask.
    if left.bits = result.bits then
      some (result.extend (result.read a &&& result.read b))
    else some (result.extend ((left.read a).setWidth result.bits))
  | .signextendi =>
    -- Between formats of one width the right operand counts the bits above
    -- the value that is extended.
    if left.bits = result.bits then
      if countBelow result b then
        some (result.extend ((result.read a <<< b.toNat).sshiftRight b.toNat))
      else none
    else some (result.extend ((left.read a).signExtend result.bits))
  | .cmpeqi | .cmpeqa => ofTruth (left.read a == left.read b)
  | .cmpnei | .cmpnea => ofTruth (left.read a != left.read b)
  | .cmplti | .cmplta =>
    ofTruth (if left.isUnsigned then (left.read a).ult (left.read b)
      else (left.read a).slt (left.read b))
  | .cmplei | .cmplea =>
    ofTruth (if left.isUnsigned then (left.read a).ule (left.read b)
      else (left.read a).sle (left.read b))
  | .cmpgti | .cmpgta =>
    ofTruth (if left.isUnsigned then (left.read b).ult (left.read a)
      else (left.read b).slt (left.read a))
  | .cmpgei | .cmpgea =>
    ofTruth (if left.isUnsigned then (left.read b).ule (left.read a)
      else (left.read b).sle (left.read a))
  | .negi => some (result.extend (-result.read a))
  | .onescomp => some (result.extend (~~~result.read a))
  | .noti => ofTruth (left.read a == 0)
  | _ => none

/-- A truth value is in canonical form for every format of more than one bit. -/
theorem canonical_truth {format : IntFormat} (wide : 1 < format.bits) (condition : Bool) :
    format.Canonical (if condition then 1 else 0) := by
  cases condition with
  | false => exact IntFormat.canonical_zero
  | true => exact IntFormat.canonical_one wide

/-- The value of an operation is in canonical form for its result. -/
theorem integerValue_canonical {opcode : IROpcode} {result left : IntFormat}
    {a b value : BitVec 64} (wide : 1 < result.bits)
    (equal : opcode.integerValue result left a b = some value) : result.Canonical value := by
  unfold integerValue at equal
  split at equal
  all_goals
    try simp only [ofTruth, Option.some.injEq, reduceCtorEq, Option.ite_none_left_eq_some,
      Option.ite_none_right_eq_some] at equal
  all_goals
    try split_ifs at equal
  all_goals
    first
    | subst equal
    | obtain ⟨-, rfl⟩ := equal
  all_goals
    with_reducible
      first
      | exact result.canonical_extend _
      | exact result.canonical_canonicalize _
      | exact IntFormat.canonical_zero
      | exact IntFormat.canonical_one wide

end IROpcode

end DaveCC.Backend
