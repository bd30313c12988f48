import DaveCC.Arith.Alignment

/-!
# Layout of structures and unions

The members of a structure are placed while they are parsed: `StructLayoutDataMember` for
ordinary members and the end of `ParseBitField` for bit-fields. `RelayoutStruct` places the
members of a finished structure again, after an attribute changes its packing or alignment.
-/

namespace DaveCC.Frontend

open DaveCC.Arith

/-- The widths of `_BitInt` types. -/
abbrev BitIntWidth := { width : Nat // 1 ≤ width ∧ width ≤ 64 }

/-- A type as layout sees it; the sizes of primitive types are those of the target. -/
inductive MemberType where
  | integer (size : Nat)
  | floating (size : Nat)
  | bitInt (width : BitIntWidth)
  | pointer (size : Nat)
  | array (element : MemberType) (count : Nat)
  | vector (element : MemberType) (count : Nat)
  /-- A complete structure or union. -/
  | aggregate (size alignment : Nat)
  deriving DecidableEq, Repr

def bitIntStorageSize (bitWidth : Nat) : Nat :=
  let bytes := (bitWidth + 7) / 8
  if bytes ≤ 1 then 1 else if bytes ≤ 2 then 2 else if bytes ≤ 4 then 4 else 8

/-- The size that `TypeRecordCalculateSize` gives a type. -/
def MemberType.size : MemberType → Nat
  | .integer size => size
  | .floating size => size
  | .bitInt width => bitIntStorageSize width
  | .pointer size => size
  | .array element count => count * element.size
  | .vector element count => count * element.size
  | .aggregate size _ => size

/-- `TypeIsIntegral`. -/
def MemberType.isIntegral : MemberType → Bool
  | .integer _ => true
  | .bitInt _ => true
  | _ => false

/-- The bits that a bit-field of a type can have. -/
def MemberType.wordWidth : MemberType → Nat
  | .bitInt width => width
  | type => type.size * 8

/-- What holds for a whole structure: `#pragma pack`, its attributes, and the target. -/
structure LayoutSettings where
  isUnion : Bool
  isCXX : Bool
  packed : Bool
  pack : Nat
  explicitAlignment : Nat
  /-- One where the target cannot honor alignments. -/
  targetAlignment : Nat
  deriving DecidableEq, Repr

/-- `TypeRecordAlignment` on a target with alignments. -/
def MemberType.naturalAlignment : MemberType → Nat
  | .integer size => size
  | .floating size => size
  | .bitInt width => bitIntStorageSize width
  | .pointer size => size
  | .array element _ => element.naturalAlignment
  | .vector element count =>
    if count * element.size > 0 then count * element.size else 1
  | .aggregate _ alignment => if alignment > 0 then alignment else 1

def typeRecordAlignment (settings : LayoutSettings) (type : MemberType) : Nat :=
  if settings.targetAlignment = 1 then 1 else type.naturalAlignment

def effectiveMemberAlignment (settings : LayoutSettings) (type : MemberType)
    (explicitAlignment : Nat) : Nat :=
  let natural := if settings.packed then 1 else typeRecordAlignment settings type
  let requested :=
    if settings.targetAlignment > 1 ∧ settings.packed = false ∧ explicitAlignment > natural then
      explicitAlignment
    else natural
  let capped := if settings.pack > 0 ∧ requested > settings.pack then settings.pack else requested
  if capped > 0 then capped else 1

/-- A member with its place. -/
structure StructMember where
  type : MemberType
  explicitAlignment : Nat
  byteOffset : Nat
  isBitField : Bool
  bitSize : Nat
  bitOffset : Nat
  deriving DecidableEq, Repr

/-- A structure while its members are placed. -/
structure Struct where
  nextOffset : Nat
  currentOffset : Nat
  size : Nat
  alignment : Nat
  nextBitPos : Nat
  members : List StructMember
  deriving DecidableEq, Repr

/-- The position after which no bit-field of 64 bits fits. -/
def noBitPos : Nat := 65

/-- `NewStruct`, as far as layout reads it. -/
def newStruct : Struct :=
  { nextOffset := 0, currentOffset := 0, size := 0, alignment := 1, nextBitPos := noBitPos,
    members := [] }

/-- `AlignNextOffsetWithAlignment`. -/
def Struct.alignNextOffset (settings : LayoutSettings) (str : Struct) (type : MemberType)
    (explicitAlignment : Nat) : Struct :=
  let alignment := effectiveMemberAlignment settings type explicitAlignment
  let offset := alignUp str.nextOffset alignment
  { str with
    alignment := if alignment > str.alignment then alignment else str.alignment
    nextOffset := offset
    nextBitPos := noBitPos
    currentOffset := offset }

/-- `UpdateStructSize`. -/
def Struct.updateSize (settings : LayoutSettings) (str : Struct) (type : MemberType) : Struct :=
  if settings.isUnion then { str with size := if type.size > str.size then type.size else str.size }
  else { str with nextOffset := str.nextOffset + type.size, size := str.nextOffset + type.size }

/-- The place of an ordinary member, without `[[no_unique_address]]`. -/
def Struct.placeDataMember (settings : LayoutSettings) (str : Struct) (type : MemberType)
    (explicitAlignment : Nat) : Struct × StructMember :=
  let aligned := str.alignNextOffset settings type explicitAlignment
  (aligned.updateSize settings type,
    { type := type, explicitAlignment := explicitAlignment, byteOffset := aligned.nextOffset,
      isBitField := false, bitSize := 0, bitOffset := 0 })

/-- The place of a bit-field that is not empty: in a new unit, or in the current one where the
position leaves room in a word of its type. -/
def Struct.placeBitField (settings : LayoutSettings) (str : Struct) (type : MemberType)
    (explicitAlignment width : Nat) : Struct × StructMember :=
  if str.nextBitPos + width > type.wordWidth then
    let aligned := str.alignNextOffset settings type explicitAlignment
    ({ aligned.updateSize settings type with
        nextBitPos := if settings.isUnion then 0 else width },
      { type := type, explicitAlignment := explicitAlignment, byteOffset := aligned.nextOffset,
        isBitField := true, bitSize := width, bitOffset := 0 })
  else
    ({ str with nextBitPos := if settings.isUnion then str.nextBitPos else str.nextBitPos + width },
      { type := type, explicitAlignment := explicitAlignment, byteOffset := str.currentOffset,
        isBitField := true, bitSize := width, bitOffset := str.nextBitPos })

/-- A bit-field without bits: padding, or what is left of an invalid one. -/
def Struct.emptyBitField (str : Struct) (type : MemberType) (explicitAlignment : Nat) :
    StructMember :=
  { type := type, explicitAlignment := explicitAlignment, byteOffset := str.currentOffset,
    isBitField := true, bitSize := 0, bitOffset := 0 }

inductive MemberDeclaration where
  | data (type : MemberType) (explicitAlignment : Nat)
  | bitField (type : MemberType) (explicitAlignment : Nat) (width : ℤ) (unnamed : Bool)
  deriving DecidableEq, Repr

/-- The text of the error about a bit-field. -/
def bitFieldError (type : MemberType) (width : ℤ) (unnamed : Bool) : Option String :=
  if type.isIntegral = false then some "only integer types can be used for bitfields"
  else if width = 0 then if unnamed then none else some "named bit-field has zero width"
  else if width < 0 ∨ width > type.wordWidth then
    some ("width of " ++ toString width ++ " is out of bounds for type of size " ++
      toString type.wordWidth ++ " bits")
  else none

/-- `ParseBitField` after the width is evaluated. -/
def Struct.parseBitField (settings : LayoutSettings) (str : Struct) (type : MemberType)
    (explicitAlignment : Nat) (width : ℤ) (unnamed : Bool) : Struct × StructMember :=
  if (bitFieldError type width unnamed).isSome then
    (str, str.emptyBitField type explicitAlignment)
  else if width = 0 then
    ({ str with nextBitPos := type.wordWidth }, str.emptyBitField type explicitAlignment)
  else str.placeBitField settings type explicitAlignment width.toNat

/-- The place of a declared member. -/
def Struct.place (settings : LayoutSettings) (str : Struct) :
    MemberDeclaration → Struct × StructMember
  | .data type explicitAlignment => str.placeDataMember settings type explicitAlignment
  | .bitField type explicitAlignment width unnamed =>
    str.parseBitField settings type explicitAlignment width unnamed

/-- The structure with a member in its place. -/
def Struct.withMember (placed : Struct × StructMember) : Struct :=
  { placed.1 with members := placed.1.members ++ [placed.2] }

/-- One member declaration. -/
def Struct.declare (settings : LayoutSettings) (str : Struct) (member : MemberDeclaration) :
    Struct :=
  Struct.withMember (str.place settings member)

/-- `FinalizeStructAlignment`. -/
def Struct.finalizeAlignment (settings : LayoutSettings) (str : Struct) : Struct :=
  let align := if str.alignment > 0 then str.alignment else 1
  let isEmptyClass := settings.isCXX && !settings.isUnion && str.size == 0
  let size := if isEmptyClass then 1 else str.size
  let alignment := if isEmptyClass then align else str.alignment
  let isRaised := settings.targetAlignment > 1 ∧ settings.explicitAlignment > align
  { str with
    size := alignUp size (if isRaised then settings.explicitAlignment else align)
    alignment := if isRaised then settings.explicitAlignment else alignment }

/-- The members of a definition, one after the other. -/
def declareAll (settings : LayoutSettings) (members : List MemberDeclaration) : Struct :=
  members.foldl (Struct.declare settings) newStruct

/-- A finished structure. -/
def layoutStruct (settings : LayoutSettings) (members : List MemberDeclaration) : Struct :=
  (declareAll settings members).finalizeAlignment settings

/-- One member in the loop of `RelayoutStruct`. -/
def Struct.relayoutMember (settings : LayoutSettings) (str : Struct) (member : StructMember) :
    Struct :=
  if member.isBitField then
    if member.type.wordWidth = 0 then { str with members := str.members ++ [member] }
    else if member.bitSize = 0 then
      { str with nextBitPos := member.type.wordWidth, members := str.members ++ [member] }
    else
      Struct.withMember
        (str.placeBitField settings member.type member.explicitAlignment member.bitSize)
  else Struct.withMember (str.placeDataMember settings member.type member.explicitAlignment)

/-- `RelayoutStruct` of a structure without base classes. -/
def relayoutStruct (settings : LayoutSettings) (members : List StructMember) : Struct :=
  (members.foldl (Struct.relayoutMember settings) newStruct).finalizeAlignment settings

end DaveCC.Frontend
