import DaveCC.Backend.IntegerSemantics

/-!
# Conversions between integral types

The front end converts an expression to a type by one of several rules, and
leaves the expression as it is when none applies. The targets here are the plain
integer types that the front end makes itself, which are never enumerations.
-/

namespace DaveCC.Frontend

open DaveCC.Arith DaveCC.Backend

/-- The sizes in bytes of the target's integer types. -/
class TypeSizes where
  intSize : Nat
  longSize : Nat
  longLongSize : Nat
  intSize_pos : 0 < intSize
  intSize_le : intSize ≤ longSize
  longSize_le : longSize ≤ longLongSize
  longLongSize_eq : longLongSize = 8

end DaveCC.Frontend

namespace DaveCC.Backend.TypeRecord

/-- A primitive type whose basic-type bits meet `bits`. -/
def isKind (type : TypeRecord) (bits : Nat) : Bool :=
  type.isPrimitive && type.hasType bits

/-- `TypeIsBool`. -/
def isBool (type : TypeRecord) : Bool :=
  type.isKind kTypeBool

/-- `TypeIsEnum`. -/
def isEnum (type : TypeRecord) : Bool :=
  type.isKind kTypeEnum

/-- `TypeIsSigned`: plain `int` is not, as only an explicit `signed` is recorded. -/
def isSigned [Compiler] (type : TypeRecord) : Bool :=
  (Compiler.plainCharIsSigned && type.type == kTypeChar) || type.isKind kTypeSigned

/-- `TypeIsInt`. -/
def isInt (type : TypeRecord) : Bool :=
  type.isKind kTypeInt &&
    (type.isEnum || !type.hasType (kTypeShort ||| kTypeLong ||| kTypeLongLong))

/-- `TypeIsShort`. -/
def isShort (type : TypeRecord) : Bool :=
  type.isKind kTypeShort

/-- `TypeIsLong`. -/
def isLong (type : TypeRecord) : Bool :=
  type.isKind kTypeLong

/-- `TypeIsLongLong`. -/
def isLongLong (type : TypeRecord) : Bool :=
  type.isKind kTypeLongLong

/-- `TypeIsCharFamily`. -/
def isCharFamily (type : TypeRecord) : Bool :=
  type.isKind (kTypeChar ||| kTypeChar8 ||| kTypeChar16 ||| kTypeChar32)

/-- The types whose conversions are made outside the conversion table. -/
def isExtended (type : TypeRecord) : Bool :=
  type.isKind (kTypeBitInt ||| kTypeInt128 ||| kTypeWchar)

def canonicalPrimitiveType (type : Nat) : Nat :=
  let specifiers :=
    kTypeInt ||| kTypeShort ||| kTypeLong ||| kTypeLongLong ||| kTypeSigned ||| kTypeUnsigned
  if type &&& (kTypeInt128 ||| kTypeWchar) != 0 then type - (type &&& kTypeSigned)
  else if type &&& specifiers == 0 || type - (type &&& specifiers) != 0 then type
  else (type ||| kTypeInt) - ((type ||| kTypeInt) &&& kTypeSigned)

/-- `TypeEqual` of integral types of which the second is not an enumeration. -/
def equal [Compiler] (left right : TypeRecord) : Bool :=
  left.isPrimitive && right.isPrimitive && left.qualifiers == right.qualifiers &&
    if (left.isBitInt || right.isBitInt) && !left.isEnum then
      left.isBitInt && right.isBitInt && left.bitWidth == right.bitWidth &&
        left.isUnsigned == right.isUnsigned
    else canonicalPrimitiveType left.type == canonicalPrimitiveType right.type

/-- `TypeEqualIgnoringSign` of integral types of which the second is not an
enumeration. -/
def equalIgnoringSign (left right : TypeRecord) : Bool :=
  let sign := kTypeSigned ||| kTypeUnsigned
  let left' := canonicalPrimitiveType left.type
  let right' := canonicalPrimitiveType right.type
  left.isPrimitive && right.isPrimitive &&
    if (left.isBitInt || right.isBitInt) && !left.isEnum then
      left.isBitInt && right.isBitInt && left.bitWidth == right.bitWidth
    else left' - (left' &&& sign) == right' - (right' &&& sign)

/-- The rows of `type_conversions` between integral types. -/
def conversionTable : List ((TypeRecord → Bool) × (TypeRecord → Bool)) :=
  [(isInt, isShort), (isInt, isLong), (isInt, isLongLong), (isInt, isCharFamily), (isInt, isBool),
    (isCharFamily, isCharFamily), (isCharFamily, isShort), (isCharFamily, isLong),
    (isCharFamily, isLongLong), (isCharFamily, isInt), (isCharFamily, isBool),
    (isShort, isCharFamily), (isShort, isLong), (isShort, isLongLong), (isShort, isInt),
    (isShort, isBool),
    (isLong, isCharFamily), (isLong, isShort), (isLong, isLongLong), (isLong, isInt),
    (isLong, isBool),
    (isLongLong, isCharFamily), (isLongLong, isShort), (isLongLong, isLong),
    (isLongLong, isInt), (isLongLong, isBool),
    (isBool, isCharFamily), (isBool, isShort), (isBool, isLongLong), (isBool, isInt),
    (isBool, isLong)]

/-- `SemanticConvertType` between integral types: the type of the converted
expression. An enumeration over `int` matches no row for `int` and keeps its type. -/
def convertType [Compiler] (source target : TypeRecord) : TypeRecord :=
  if source.equal target then source
  else if source.isExtended || target.isExtended then target
  else if source.equalIgnoringSign target then target
  else if conversionTable.any fun row => row.1 source && row.2 target then target
  else source

theorem convertType_eq [Compiler] (source target : TypeRecord) :
    source.convertType target = source ∨ source.convertType target = target := by
  unfold convertType
  split_ifs
  · exact .inl rfl
  · exact .inr rfl
  · exact .inr rfl
  · exact .inr rfl
  · exact .inl rfl

end DaveCC.Backend.TypeRecord

namespace DaveCC.Frontend

open DaveCC.Arith DaveCC.Backend

open TypeSizes

/-- `SizeofType` of the types that `int`, `long` and `long long` are made of. -/
def sizeofType [TypeSizes] (type : Nat) : Nat :=
  if type &&& kTypeLong != 0 then TypeSizes.longSize
  else if type &&& kTypeLongLong != 0 then longLongSize
  else TypeSizes.intSize

/-- `NewTypeRecordWithSize` of an unqualified integer type. -/
def newTypeRecordWithSize [TypeSizes] (type : Nat) : TypeRecord :=
  { declarator := .primitive, type := type, size := sizeofType type }

/-- The basic integer types that expressions are promoted to. -/
inductive PromotedType where
  | int | long | longLong
  deriving DecidableEq, Repr

namespace PromotedType

/-- The basic-type bits of a promoted type. -/
def bits : PromotedType → Nat
  | .int => kTypeInt
  | .long => kTypeLong
  | .longLong => kTypeLongLong

/-- The size of a promoted type. -/
def size [TypeSizes] : PromotedType → Nat
  | .int => TypeSizes.intSize
  | .long => TypeSizes.longSize
  | .longLong => longLongSize

/-- The basic-type bits of the record of a promoted type. -/
def recordBits (type : PromotedType) (isUnsigned : Bool) : Nat :=
  if isUnsigned then type.bits ||| kTypeUnsigned else type.bits

/-- The type record of a promoted type, signed or unsigned. -/
def record [TypeSizes] (type : PromotedType) (isUnsigned : Bool) : TypeRecord :=
  newTypeRecordWithSize (type.recordBits isUnsigned)

theorem size_pos [TypeSizes] (type : PromotedType) : 0 < type.size := by
  have positive := intSize_pos
  have intSize_le := intSize_le
  have longSize_le := longSize_le
  cases type with
  | int => exact positive
  | long => exact lt_of_lt_of_le positive intSize_le
  | longLong => exact lt_of_lt_of_le positive (intSize_le.trans longSize_le)

theorem size_le [TypeSizes] (type : PromotedType) : type.size ≤ 8 := by
  have intSize_le := intSize_le
  have longSize_le := longSize_le
  have longLongSize_eq := longLongSize_eq
  cases type with
  | int => exact longLongSize_eq ▸ intSize_le.trans longSize_le
  | long => exact longLongSize_eq ▸ longSize_le
  | longLong => exact longLongSize_eq.le

/-- The format of a promoted type. -/
def format [TypeSizes] (type : PromotedType) (isUnsigned : Bool) : IntFormat where
  bits := type.size * 8
  isUnsigned := isUnsigned
  positive := Nat.mul_pos type.size_pos (by decide)
  fits := Nat.mul_le_mul_right 8 type.size_le

@[simp] theorem size_record [TypeSizes] (type : PromotedType) (isUnsigned : Bool) :
    (type.record isUnsigned).size = type.size := by
  cases type <;> cases isUnsigned <;> rfl

theorem isKind_record [TypeSizes] (type : PromotedType) (isUnsigned : Bool) (bits : Nat) :
    (type.record isUnsigned).isKind bits = (type.recordBits isUnsigned &&& bits != 0) :=
  rfl

theorem recordBits_ne_char (type : PromotedType) (isUnsigned : Bool) :
    (type.recordBits isUnsigned == kTypeChar) = false := by
  cases type <;> cases isUnsigned <;> decide

@[simp] theorem isUnsigned_record [TypeSizes] [Compiler] (type : PromotedType)
    (isUnsigned : Bool) : (type.record isUnsigned).isUnsigned = isUnsigned := by
  have unfolded : (type.record isUnsigned).isUnsigned =
      ((type.recordBits isUnsigned &&& (kTypeChar8 ||| kTypeChar16 ||| kTypeChar32) != 0) ||
        (!Compiler.plainCharIsSigned && type.recordBits isUnsigned == kTypeChar) ||
        (type.recordBits isUnsigned &&& (kTypeUnsigned ||| kTypeBool) != 0)) := rfl
  rw [unfolded, recordBits_ne_char, Bool.and_false]
  cases type <;> cases isUnsigned <;> decide

theorem isIntegral_record [TypeSizes] (type : PromotedType) (isUnsigned : Bool) :
    (type.record isUnsigned).isIntegral = true := by
  rw [TypeRecord.isIntegral, ← TypeRecord.isKind, isKind_record]
  cases type <;> cases isUnsigned <;> decide

theorem isBitInt_record [TypeSizes] (type : PromotedType) (isUnsigned : Bool) :
    (type.record isUnsigned).isBitInt = false := by
  rw [TypeRecord.isBitInt, ← TypeRecord.isKind, isKind_record]
  cases type <;> cases isUnsigned <;> decide

theorem intFormat?_record [TypeSizes] [Compiler] (type : PromotedType) (isUnsigned : Bool) :
    (type.record isUnsigned).intFormat? = some (type.format isUnsigned) := by
  have valueBits : (type.record isUnsigned).valueBits = type.size * 8 := by
    simp [TypeRecord.valueBits, isBitInt_record]
  have positive := (type.format isUnsigned).positive
  have fits := (type.format isUnsigned).fits
  simp only [format] at positive fits
  simp [TypeRecord.intFormat?, isIntegral_record, valueBits, positive, fits, format]

end PromotedType

end DaveCC.Frontend
