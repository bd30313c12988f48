import DaveCC.Frontend.StructLayout

/-!
# Layouts that keep members apart

What a finished layout must satisfy, and when the counters of the layout give it: the invariant
of the open structure, one lemma for each way a member gets its place, and the run over all
members.
-/

namespace DaveCC.Frontend

open DaveCC.Arith Struct

namespace StructMember

/-- Whether a member has storage: a bit-field without bits has none. -/
def Occupies (member : StructMember) : Prop :=
  member.isBitField = false ∨ 0 < member.bitSize

/-- The bits of a member in the structure. -/
def firstBit (member : StructMember) : Nat :=
  8 * member.byteOffset + member.bitOffset

def bitCount (member : StructMember) : Nat :=
  if member.isBitField then member.bitSize else 8 * member.type.size

def endBit (member : StructMember) : Nat :=
  member.firstBit + member.bitCount

def Holds (member : StructMember) (bit : Nat) : Prop :=
  member.firstBit ≤ bit ∧ bit < member.endBit

/-- No bit belongs to both members. -/
def Apart (member other : StructMember) : Prop :=
  ∀ bit, member.Holds bit → ¬ other.Holds bit

variable {member : StructMember}

theorem apart_of_le {other : StructMember} (before : member.endBit ≤ other.firstBit) :
    member.Apart other := by
  intro bit holds otherHolds
  exact absurd (Nat.le_trans before otherHolds.1) (Nat.not_le_of_lt holds.2)

theorem not_holds_of_empty (empty : member.bitCount = 0) (bit : Nat) : ¬ member.Holds bit := by
  intro holds
  have before := holds.2
  rw [endBit, empty, Nat.add_zero] at before
  exact absurd holds.1 (Nat.not_le_of_lt before)

end StructMember

def memberAlignment (settings : LayoutSettings) (member : StructMember) : Nat :=
  effectiveMemberAlignment settings member.type member.explicitAlignment

/-- The members of a finished structure are apart and inside it, and aligned like it; in a
union they start at its start. -/
structure SoundLayout (settings : LayoutSettings) (str : Struct) : Prop where
  apart : settings.isUnion = false → str.members.Pairwise StructMember.Apart
  inside : settings.isUnion = false → ∀ member ∈ str.members, member.Occupies →
    member.endBit ≤ 8 * (member.byteOffset + member.type.size) ∧
      member.byteOffset + member.type.size ≤ str.size
  aligned : settings.isUnion = false → ∀ member ∈ str.members, member.Occupies →
    memberAlignment settings member ∣ member.byteOffset
  multiple : str.alignment ∣ str.size
  alignment : ∀ member ∈ str.members, member.Occupies →
    memberAlignment settings member ≤ str.alignment
  starts : settings.isUnion = true → ∀ member ∈ str.members, member.Occupies → member.firstBit = 0
  covers : settings.isUnion = true → ∀ member ∈ str.members, member.Occupies →
    member.type.size ≤ str.size

/-- The alignment that attributes ask for the structure, where the target honors it. -/
def requestedAlignment (settings : LayoutSettings) : Nat :=
  if settings.targetAlignment > 1 then settings.explicitAlignment else 0

/-- The alignment that a structure has if it ends here. -/
def closingAlignment (settings : LayoutSettings) (str : Struct) : Nat :=
  Nat.max str.alignment (requestedAlignment settings)

/-- A bit-field fits in the current unit: what the unit holds ends before the position, the
bits are among the bytes that are allocated, and the storage unit of the field's own type is
aligned and ends before the end that the structure has with its padding. -/
structure FitsUnit (settings : LayoutSettings) (str : Struct) (type : MemberType)
    (explicitAlignment width : Nat) : Prop where
  behind : ∀ member ∈ str.members, member.byteOffset = str.currentOffset →
    member.bitOffset + member.bitCount ≤ str.nextBitPos
  allocated : 8 * str.currentOffset + str.nextBitPos + width ≤ 8 * str.nextOffset
  covered : str.currentOffset + type.size ≤ alignUp str.nextOffset (closingAlignment settings str)
  aligned : effectiveMemberAlignment settings type explicitAlignment ∣ str.currentOffset
  alignment : effectiveMemberAlignment settings type explicitAlignment ≤
    closingAlignment settings str

/-- The same in a union, where all members start together. -/
structure FitsUnion (settings : LayoutSettings) (str : Struct) (type : MemberType)
    (explicitAlignment : Nat) : Prop where
  start : str.nextBitPos = 0
  covered : type.size ≤ alignUp str.size (closingAlignment settings str)
  alignment : effectiveMemberAlignment settings type explicitAlignment ≤
    closingAlignment settings str

/-- The condition on a declaration in the state before it: alignments are powers of two, and a
bit-field that goes into the current unit fits there. -/
def MemberDeclaration.Fits (settings : LayoutSettings) (str : Struct) : MemberDeclaration → Prop
  | .data type explicitAlignment =>
    IsAlignment (effectiveMemberAlignment settings type explicitAlignment)
  | .bitField type explicitAlignment width unnamed =>
    (bitFieldError type width unnamed).isSome ∨ width = 0 ∨
      if str.nextBitPos + width.toNat > type.wordWidth then
        IsAlignment (effectiveMemberAlignment settings type explicitAlignment)
      else if settings.isUnion then FitsUnion settings str type explicitAlignment
      else FitsUnit settings str type explicitAlignment width.toNat

/-- All declarations of a run fit, each in the state that the ones before it leave. -/
def DeclarationsFit (settings : LayoutSettings) : Struct → List MemberDeclaration → Prop
  | _, [] => True
  | str, member :: members =>
    member.Fits settings str ∧ DeclarationsFit settings (str.declare settings member) members

theorem wordWidth_le (type : MemberType) : type.wordWidth ≤ 8 * type.size := by
  cases type with
  | bitInt width =>
    simp only [MemberType.wordWidth, MemberType.size, bitIntStorageSize]
    split_ifs <;> omega
  | integer size => exact Nat.le_of_eq (Nat.mul_comm _ _)
  | floating size => exact Nat.le_of_eq (Nat.mul_comm _ _)
  | pointer size => exact Nat.le_of_eq (Nat.mul_comm _ _)
  | array element count => exact Nat.le_of_eq (Nat.mul_comm _ _)
  | vector element count => exact Nat.le_of_eq (Nat.mul_comm _ _)
  | aggregate size alignment => exact Nat.le_of_eq (Nat.mul_comm _ _)

/-- A bit-field without an error has a width of its type. -/
theorem width_of_no_error {type : MemberType} {width : ℤ} {unnamed : Bool}
    (valid : (bitFieldError type width unnamed).isSome = false) (nonzero : width ≠ 0) :
    0 < width.toNat ∧ width.toNat ≤ type.wordWidth := by
  rw [bitFieldError] at valid
  split at valid
  · cases valid
  · split at valid
    · cases valid
    · omega

theorem alignNextOffset_eq (settings : LayoutSettings) (str : Struct) (type : MemberType)
    (explicitAlignment : Nat) :
    str.alignNextOffset settings type explicitAlignment =
      { str with
        alignment := Nat.max str.alignment
          (effectiveMemberAlignment settings type explicitAlignment)
        nextOffset := alignUp str.nextOffset
          (effectiveMemberAlignment settings type explicitAlignment)
        nextBitPos := noBitPos
        currentOffset := alignUp str.nextOffset
          (effectiveMemberAlignment settings type explicitAlignment) } := by
  rw [alignNextOffset]
  congr 1
  rw [Nat.max_eq_max]
  split <;> omega

/-- The invariant of a structure whose members are being placed. -/
structure OpenStruct (settings : LayoutSettings) (str : Struct) : Prop where
  alignment : IsAlignment str.alignment
  size : str.size = str.nextOffset
  current : str.currentOffset ≤ str.nextOffset
  apart : str.members.Pairwise StructMember.Apart
  ends : ∀ member ∈ str.members, member.endBit ≤ 8 * str.nextOffset
  unit : ∀ member ∈ str.members, member.byteOffset ≤ str.currentOffset ∧
    (member.byteOffset < str.currentOffset → member.endBit ≤ 8 * str.currentOffset)
  held : ∀ member ∈ str.members, member.Occupies →
    member.endBit ≤ 8 * (member.byteOffset + member.type.size)
  covered : ∀ member ∈ str.members, member.Occupies →
    member.byteOffset + member.type.size ≤ alignUp str.nextOffset (closingAlignment settings str)
  aligned : ∀ member ∈ str.members, member.Occupies →
    memberAlignment settings member ∣ member.byteOffset
  bounded : ∀ member ∈ str.members, member.Occupies →
    memberAlignment settings member ≤ closingAlignment settings str

/-- A member that is put behind all others, in bytes of its own. -/
structure FreshMember (settings : LayoutSettings) (str : Struct) (member : StructMember) :
    Prop where
  start : member.byteOffset = alignUp str.nextOffset (memberAlignment settings member)
  offset : member.bitOffset = 0
  held : member.bitCount ≤ 8 * member.type.size

section Struct

variable {settings : LayoutSettings} {str : Struct}
  (requested : requestedAlignment settings = 0 ∨ IsAlignment (requestedAlignment settings))

include requested in
theorem OpenStruct.isAlignment_closing (isOpen : OpenStruct settings str) :
    IsAlignment (closingAlignment settings str) := by
  rcases requested with none | isAlignment
  · rw [closingAlignment, none, Nat.max_eq_max, Nat.max_zero]
    exact isOpen.alignment
  · exact isOpen.alignment.max isAlignment

include requested in
/-- A member in bytes of its own keeps the invariant. -/
theorem OpenStruct.fresh (isOpen : OpenStruct settings str) {member : StructMember}
    (nextBitPos : Nat) (fresh : FreshMember settings str member)
    (isAlignment : IsAlignment (memberAlignment settings member)) :
    OpenStruct settings
      { nextOffset := member.byteOffset + member.type.size
        currentOffset := member.byteOffset
        size := member.byteOffset + member.type.size
        alignment := Nat.max str.alignment (memberAlignment settings member)
        nextBitPos := nextBitPos
        members := str.members ++ [member] } := by
  have start : str.nextOffset ≤ member.byteOffset := by
    rw [fresh.start]
    exact le_alignUp _ _
  have firstBit : member.firstBit = 8 * member.byteOffset := by
    rw [StructMember.firstBit, fresh.offset, Nat.add_zero]
  have endBit : member.endBit ≤ 8 * (member.byteOffset + member.type.size) := by
    have held := fresh.held
    rw [StructMember.endBit, firstBit]
    omega
  have grown : closingAlignment settings str ≤
      Nat.max (Nat.max str.alignment (memberAlignment settings member))
        (requestedAlignment settings) := by
    simp only [closingAlignment, Nat.max_eq_max]
    omega
  have largest : IsAlignment (Nat.max (Nat.max str.alignment (memberAlignment settings member))
      (requestedAlignment settings)) := by
    rcases requested with none | isRequested
    · rw [none, Nat.max_eq_max, Nat.max_zero]
      exact isOpen.alignment.max isAlignment
    · exact (isOpen.alignment.max isAlignment).max isRequested
  constructor
  · exact isOpen.alignment.max isAlignment
  · rfl
  · exact Nat.le_add_right _ _
  · rw [List.pairwise_append]
    refine ⟨isOpen.apart, List.pairwise_singleton _ _, ?_⟩
    intro other isOther new isNew
    rw [List.mem_singleton.mp isNew]
    apply StructMember.apart_of_le
    have ends := isOpen.ends other isOther
    omega
  · intro other isMember
    rcases List.mem_append.mp isMember with old | new
    · have ends := isOpen.ends other old
      dsimp only
      omega
    · rw [List.mem_singleton.mp new]
      exact endBit
  · intro other isMember
    rcases List.mem_append.mp isMember with old | new
    · have ends := isOpen.ends other old
      have unit := (isOpen.unit other old).1
      have current := isOpen.current
      dsimp only
      omega
    · rw [List.mem_singleton.mp new]
      exact ⟨Nat.le_refl _, fun less => absurd less (Nat.lt_irrefl _)⟩
  · intro other isMember occupies
    rcases List.mem_append.mp isMember with old | new
    · exact isOpen.held other old occupies
    · rw [List.mem_singleton.mp new]
      exact endBit
  · intro other isMember occupies
    rcases List.mem_append.mp isMember with old | new
    · apply Nat.le_trans (isOpen.covered other old occupies)
      exact (isOpen.isAlignment_closing requested).alignUp_le_alignUp largest grown
        (Nat.le_trans start (Nat.le_add_right _ _))
    · rw [List.mem_singleton.mp new]
      exact le_alignUp _ _
  · intro other isMember occupies
    rcases List.mem_append.mp isMember with old | new
    · exact isOpen.aligned other old occupies
    · rw [List.mem_singleton.mp new, fresh.start]
      exact isAlignment.dvd_alignUp _
  · intro other isMember occupies
    rcases List.mem_append.mp isMember with old | new
    · exact Nat.le_trans (isOpen.bounded other old occupies) grown
    · rw [List.mem_singleton.mp new]
      simp only [closingAlignment, Nat.max_eq_max]
      omega

variable {type : MemberType} {explicitAlignment : Nat}

/-- A bit-field without bits keeps the invariant. -/
theorem OpenStruct.empty (isOpen : OpenStruct settings str) (nextBitPos : Nat) :
    OpenStruct settings
      { str with
        nextBitPos := nextBitPos
        members := str.members ++ [str.emptyBitField type explicitAlignment] } := by
  have notOccupied : ¬ (str.emptyBitField type explicitAlignment).Occupies := by
    rintro (ordinary | positive)
    · cases ordinary
    · exact Nat.lt_irrefl 0 positive
  have endBit : (str.emptyBitField type explicitAlignment).endBit = 8 * str.currentOffset := rfl
  have current := isOpen.current
  refine ⟨isOpen.alignment, isOpen.size, isOpen.current, ?_, ?_, ?_, ?_, ?_, ?_, ?_⟩
  · rw [List.pairwise_append]
    refine ⟨isOpen.apart, List.pairwise_singleton _ _, ?_⟩
    intro other _ new isNew
    rw [List.mem_singleton.mp isNew]
    exact fun bit _ => StructMember.not_holds_of_empty rfl bit
  · intro other isMember
    rcases List.mem_append.mp isMember with old | new
    · exact isOpen.ends other old
    · rw [List.mem_singleton.mp new, endBit]
      dsimp only
      omega
  · intro other isMember
    rcases List.mem_append.mp isMember with old | new
    · exact isOpen.unit other old
    · rw [List.mem_singleton.mp new]
      exact ⟨Nat.le_refl _, fun less => absurd less (Nat.lt_irrefl _)⟩
  all_goals
    intro other isMember occupies
    rcases List.mem_append.mp isMember with old | new
  · exact isOpen.held other old occupies
  · exact absurd (List.mem_singleton.mp new ▸ occupies) notOccupied
  · exact isOpen.covered other old occupies
  · exact absurd (List.mem_singleton.mp new ▸ occupies) notOccupied
  · exact isOpen.aligned other old occupies
  · exact absurd (List.mem_singleton.mp new ▸ occupies) notOccupied
  · exact isOpen.bounded other old occupies
  · exact absurd (List.mem_singleton.mp new ▸ occupies) notOccupied

/-- A bit-field that fits in the current unit keeps the invariant. -/
theorem OpenStruct.join (isOpen : OpenStruct settings str) {width : Nat}
    (room : str.nextBitPos + width ≤ type.wordWidth)
    (fits : FitsUnit settings str type explicitAlignment width) :
    OpenStruct settings
      { str with
        nextBitPos := str.nextBitPos + width
        members := str.members ++ [
          { type := type, explicitAlignment := explicitAlignment, byteOffset := str.currentOffset,
            isBitField := true, bitSize := width, bitOffset := str.nextBitPos }] } := by
  have word := wordWidth_le type
  have allocated := fits.allocated
  refine ⟨isOpen.alignment, isOpen.size, isOpen.current, ?_, ?_, ?_, ?_, ?_, ?_, ?_⟩
  · rw [List.pairwise_append]
    refine ⟨isOpen.apart, List.pairwise_singleton _ _, ?_⟩
    intro other isOther new isNew
    rw [List.mem_singleton.mp isNew]
    apply StructMember.apart_of_le
    obtain ⟨before, earlier⟩ := isOpen.unit other isOther
    rw [StructMember.firstBit.eq_def { type := type, .. }]
    rcases Nat.lt_or_eq_of_le before with less | same
    · exact Nat.le_trans (earlier less) (Nat.le_add_right _ _)
    · have behind := fits.behind other isOther same
      rw [StructMember.endBit, StructMember.firstBit, same]
      dsimp only
      omega
  · intro other isMember
    rcases List.mem_append.mp isMember with old | new
    · exact isOpen.ends other old
    · rw [List.mem_singleton.mp new]
      exact allocated
  · intro other isMember
    rcases List.mem_append.mp isMember with old | new
    · exact isOpen.unit other old
    · rw [List.mem_singleton.mp new]
      exact ⟨Nat.le_refl _, fun less => absurd less (Nat.lt_irrefl _)⟩
  all_goals
    intro other isMember occupies
    rcases List.mem_append.mp isMember with old | new
  · exact isOpen.held other old occupies
  · rw [List.mem_singleton.mp new]
    simp only [StructMember.endBit, StructMember.firstBit, StructMember.bitCount, if_true]
    omega
  · exact isOpen.covered other old occupies
  · rw [List.mem_singleton.mp new]
    exact fits.covered
  · exact isOpen.aligned other old occupies
  · rw [List.mem_singleton.mp new]
    exact fits.aligned
  · exact isOpen.bounded other old occupies
  · rw [List.mem_singleton.mp new]
    exact fits.alignment

include requested in
/-- Every declaration that fits keeps the invariant. -/
theorem OpenStruct.declare (isOpen : OpenStruct settings str) (isStruct : settings.isUnion = false)
    {member : MemberDeclaration} (fits : member.Fits settings str) :
    OpenStruct settings (str.declare settings member) := by
  cases member with
  | data type explicitAlignment =>
    have placed : FreshMember settings str
        (str.placeDataMember settings type explicitAlignment).2 :=
      ⟨by rw [placeDataMember, alignNextOffset_eq]; rfl, rfl, Nat.le_refl _⟩
    have fresh := isOpen.fresh requested noBitPos placed fits
    simp only [Struct.declare, Struct.place, placeDataMember, withMember,
      updateSize, isStruct, alignNextOffset_eq] at fresh ⊢
    exact fresh
  | bitField type explicitAlignment width unnamed =>
    simp only [Struct.declare, Struct.place, parseBitField]
    simp only [MemberDeclaration.Fits] at fits
    by_cases invalid : (bitFieldError type width unnamed).isSome = true
    · rw [if_pos invalid]
      exact isOpen.empty str.nextBitPos
    by_cases zero : width = 0
    · rw [if_neg invalid, if_pos zero]
      exact isOpen.empty _
    replace fits := (fits.resolve_left invalid).resolve_left zero
    have valid := width_of_no_error (Bool.eq_false_iff.mpr invalid) zero
    rw [if_neg invalid, if_neg zero, placeBitField]
    by_cases full : str.nextBitPos + width.toNat > type.wordWidth
    · rw [if_pos full] at fits ⊢
      have word := wordWidth_le type
      have placed : FreshMember settings str
          { type := type, explicitAlignment := explicitAlignment
            byteOffset := (str.alignNextOffset settings type explicitAlignment).nextOffset
            isBitField := true, bitSize := width.toNat, bitOffset := 0 } := by
        refine ⟨?_, rfl, ?_⟩
        · rw [alignNextOffset_eq]
          rfl
        · simp only [StructMember.bitCount, if_true]
          omega
      have fresh := isOpen.fresh requested width.toNat placed fits
      simp only [withMember, updateSize, isStruct, alignNextOffset_eq] at fresh ⊢
      exact fresh
    · rw [if_neg full, if_neg (by rw [isStruct]; exact Bool.false_ne_true)] at fits
      rw [if_neg full, isStruct]
      exact isOpen.join (Nat.le_of_not_lt full) fits

theorem openStruct_new : OpenStruct settings newStruct := by
  refine ⟨IsAlignment.one, rfl, Nat.le_refl _, List.Pairwise.nil, ?_, ?_, ?_, ?_, ?_, ?_⟩ <;>
    exact fun _ absent => absurd absent List.not_mem_nil

theorem finalizeAlignment_eq (settings : LayoutSettings) (isAlignment : IsAlignment str.alignment) :
    (str.finalizeAlignment settings).alignment = closingAlignment settings str ∧
      (str.finalizeAlignment settings).members = str.members ∧
      ((str.finalizeAlignment settings).size = alignUp str.size (closingAlignment settings str) ∨
        str.size = 0 ∧
          (str.finalizeAlignment settings).size = alignUp 1 (closingAlignment settings str)) := by
  have align : (if str.alignment > 0 then str.alignment else 1) = str.alignment :=
    if_pos isAlignment.pos
  have closing : (if settings.targetAlignment > 1 ∧
      settings.explicitAlignment > str.alignment then settings.explicitAlignment
      else str.alignment) = closingAlignment settings str := by
    rw [closingAlignment, requestedAlignment, Nat.max_eq_max]
    split_ifs <;> omega
  simp only [finalizeAlignment, align, ite_self, closing]
  cases empty : (settings.isCXX && !settings.isUnion && str.size == 0) with
  | true =>
    simp only [Bool.and_eq_true, beq_iff_eq] at empty
    exact ⟨trivial, trivial, .inr ⟨empty.2, rfl⟩⟩
  | false => exact ⟨trivial, trivial, .inl rfl⟩

include requested in
/-- A finished structure is sound. -/
theorem OpenStruct.sound (isOpen : OpenStruct settings str) (isStruct : settings.isUnion = false) :
    SoundLayout settings (str.finalizeAlignment settings) := by
  obtain ⟨alignment, members, size⟩ :=
    finalizeAlignment_eq settings isOpen.alignment
  have isAlignment := isOpen.isAlignment_closing requested
  have large : alignUp str.nextOffset (closingAlignment settings str) ≤
      (str.finalizeAlignment settings).size := by
    rw [← isOpen.size]
    rcases size with size | ⟨empty, size⟩
    · exact Nat.le_of_eq size.symm
    · rw [size, empty]
      exact isAlignment.alignUp_le_alignUp isAlignment (Nat.le_refl _) (Nat.zero_le 1)
  constructor
  · intro _
    rw [members]
    exact isOpen.apart
  · intro _ member isMember occupies
    rw [members] at isMember
    exact ⟨isOpen.held member isMember occupies,
      Nat.le_trans (isOpen.covered member isMember occupies) large⟩
  · intro _ member isMember occupies
    rw [members] at isMember
    exact isOpen.aligned member isMember occupies
  · rw [alignment]
    rcases size with size | ⟨_, size⟩
    · rw [size]
      exact isAlignment.dvd_alignUp _
    · rw [size]
      exact isAlignment.dvd_alignUp _
  · intro member isMember occupies
    rw [members] at isMember
    rw [alignment]
    exact isOpen.bounded member isMember occupies
  · intro isUnion
    exact absurd (isStruct.symm.trans isUnion) Bool.false_ne_true
  · intro isUnion
    exact absurd (isStruct.symm.trans isUnion) Bool.false_ne_true

/-! ## The invariant of an open union -/

/-- The invariant of a union whose members are being placed. -/
structure OpenUnion (settings : LayoutSettings) (str : Struct) : Prop where
  alignment : IsAlignment str.alignment
  nextOffset : str.nextOffset = 0
  currentOffset : str.currentOffset = 0
  starts : ∀ member ∈ str.members, member.Occupies → member.firstBit = 0
  covered : ∀ member ∈ str.members, member.Occupies →
    member.type.size ≤ alignUp str.size (closingAlignment settings str)
  bounded : ∀ member ∈ str.members, member.Occupies →
    memberAlignment settings member ≤ closingAlignment settings str

include requested in
theorem OpenUnion.isAlignment_closing (isOpen : OpenUnion settings str) :
    IsAlignment (closingAlignment settings str) := by
  rcases requested with none | isAlignment
  · rw [closingAlignment, none, Nat.max_eq_max, Nat.max_zero]
    exact isOpen.alignment
  · exact isOpen.alignment.max isAlignment

/-- One more member keeps the invariant of a union, if the union has grown to cover it. -/
theorem OpenUnion.withMember {member : StructMember} {next : Struct}
    (isOpen : OpenUnion settings str) (alignment : IsAlignment next.alignment)
    (nextOffset : next.nextOffset = 0) (currentOffset : next.currentOffset = 0)
    (members : next.members = str.members ++ [member])
    (larger : alignUp str.size (closingAlignment settings str) ≤ alignUp next.size
      (closingAlignment settings next))
    (stricter : closingAlignment settings str ≤ closingAlignment settings next)
    (start : member.Occupies → member.firstBit = 0)
    (covered : member.Occupies → member.type.size ≤ alignUp next.size (closingAlignment settings
      next))
    (bounded : member.Occupies → memberAlignment settings member ≤ closingAlignment settings next) :
    OpenUnion settings next := by
  refine ⟨alignment, nextOffset, currentOffset, ?_, ?_, ?_⟩
  all_goals
    intro other isMember occupies
    rw [members] at isMember
    rcases List.mem_append.mp isMember with old | new
  · exact isOpen.starts other old occupies
  · rw [List.mem_singleton.mp new] at occupies ⊢
    exact start occupies
  · exact Nat.le_trans (isOpen.covered other old occupies) larger
  · rw [List.mem_singleton.mp new] at occupies ⊢
    exact covered occupies
  · exact Nat.le_trans (isOpen.bounded other old occupies) stricter
  · rw [List.mem_singleton.mp new] at occupies ⊢
    exact bounded occupies

include requested in
/-- A member that the union is aligned and sized for keeps the invariant. -/
theorem OpenUnion.fresh (isOpen : OpenUnion settings str) (member : StructMember)
    (nextBitPos : Nat) (isAlignment : IsAlignment (memberAlignment settings member))
    (start : member.firstBit = 0) :
    OpenUnion settings
      { nextOffset := 0
        currentOffset := 0
        size := if member.type.size > str.size then member.type.size else str.size
        alignment := Nat.max str.alignment (memberAlignment settings member)
        nextBitPos := nextBitPos
        members := str.members ++ [member] } := by
  have largest : IsAlignment (Nat.max (Nat.max str.alignment (memberAlignment settings member))
      (requestedAlignment settings)) := by
    rcases requested with none | isRequested
    · rw [none, Nat.max_eq_max, Nat.max_zero]
      exact isOpen.alignment.max isAlignment
    · exact (isOpen.alignment.max isAlignment).max isRequested
  have stricter : closingAlignment settings str ≤
      Nat.max (Nat.max str.alignment (memberAlignment settings member))
        (requestedAlignment settings) := by
    simp only [closingAlignment, Nat.max_eq_max]
    omega
  apply isOpen.withMember (isOpen.alignment.max isAlignment) rfl rfl rfl
  · apply (isOpen.isAlignment_closing requested).alignUp_le_alignUp largest stricter
    dsimp only
    split <;> omega
  · exact stricter
  · exact fun _ => start
  · intro _
    refine Nat.le_trans ?_ (le_alignUp _ _)
    dsimp only
    split <;> omega
  · intro _
    simp only [closingAlignment, Nat.max_eq_max]
    omega

include requested in
/-- Every declaration that fits keeps the invariant of a union. -/
theorem OpenUnion.declare (isOpen : OpenUnion settings str) (isUnion : settings.isUnion = true)
    {member : MemberDeclaration} (fits : member.Fits settings str) :
    OpenUnion settings (str.declare settings member) := by
  have notOccupied (type : MemberType) (explicitAlignment : Nat) :
      ¬ (str.emptyBitField type explicitAlignment).Occupies := by
    rintro (ordinary | positive)
    · cases ordinary
    · exact Nat.lt_irrefl 0 positive
  have empty (type : MemberType) (explicitAlignment nextBitPos : Nat) : OpenUnion settings
      { str with
        nextBitPos := nextBitPos
        members := str.members ++ [str.emptyBitField type explicitAlignment] } :=
    isOpen.withMember isOpen.alignment isOpen.nextOffset isOpen.currentOffset rfl (Nat.le_refl _)
      (Nat.le_refl _) (fun occupies => absurd occupies (notOccupied type explicitAlignment))
      (fun occupies => absurd occupies (notOccupied type explicitAlignment))
      (fun occupies => absurd occupies (notOccupied type explicitAlignment))
  cases member with
  | data type explicitAlignment =>
    have start : (str.placeDataMember settings type explicitAlignment).2.firstBit = 0 := by
      simp only [placeDataMember, alignNextOffset_eq, isOpen.nextOffset, alignUp_zero]
      rfl
    have fresh := isOpen.fresh requested (str.placeDataMember settings type explicitAlignment).2
      noBitPos fits start
    simp only [Struct.declare, Struct.place, placeDataMember, withMember, updateSize, isUnion,
      alignNextOffset_eq, isOpen.nextOffset, alignUp_zero, if_true] at fresh ⊢
    exact fresh
  | bitField type explicitAlignment width unnamed =>
    simp only [Struct.declare, Struct.place, parseBitField]
    simp only [MemberDeclaration.Fits] at fits
    by_cases invalid : (bitFieldError type width unnamed).isSome = true
    · rw [if_pos invalid]
      exact empty type explicitAlignment str.nextBitPos
    by_cases zero : width = 0
    · rw [if_neg invalid, if_pos zero]
      exact empty type explicitAlignment _
    replace fits := (fits.resolve_left invalid).resolve_left zero
    rw [if_neg invalid, if_neg zero, placeBitField]
    by_cases full : str.nextBitPos + width.toNat > type.wordWidth
    · rw [if_pos full] at fits ⊢
      have fresh := isOpen.fresh requested
        { type := type, explicitAlignment := explicitAlignment, byteOffset := 0
          isBitField := true, bitSize := width.toNat, bitOffset := 0 } 0 fits rfl
      simp only [withMember, updateSize, isUnion, alignNextOffset_eq,
        isOpen.nextOffset, alignUp_zero, if_true] at fresh ⊢
      exact fresh
    · rw [if_neg full, if_pos isUnion] at fits
      rw [if_neg full]
      simp only [withMember, isUnion, if_true]
      refine isOpen.withMember isOpen.alignment isOpen.nextOffset isOpen.currentOffset rfl
        (Nat.le_refl _) (Nat.le_refl _) ?_ (fun _ => fits.covered) (fun _ => fits.alignment)
      intro _
      rw [StructMember.firstBit, isOpen.currentOffset, fits.start]
      rfl

theorem openUnion_new : OpenUnion settings newStruct := by
  refine ⟨IsAlignment.one, rfl, rfl, ?_, ?_, ?_⟩ <;>
    exact fun _ absent => absurd absent List.not_mem_nil

include requested in
theorem OpenUnion.sound (isOpen : OpenUnion settings str) (isUnion : settings.isUnion = true) :
    SoundLayout settings (str.finalizeAlignment settings) := by
  obtain ⟨alignment, members, size⟩ := finalizeAlignment_eq settings isOpen.alignment
  have isAlignment := isOpen.isAlignment_closing requested
  have large : alignUp str.size (closingAlignment settings str) ≤
      (str.finalizeAlignment settings).size := by
    rcases size with size | ⟨empty, size⟩
    · exact Nat.le_of_eq size.symm
    · rw [size, empty]
      exact isAlignment.alignUp_le_alignUp isAlignment (Nat.le_refl _) (Nat.zero_le 1)
  constructor
  · intro isStruct
    exact absurd (isStruct.symm.trans isUnion) Bool.false_ne_true
  · intro isStruct
    exact absurd (isStruct.symm.trans isUnion) Bool.false_ne_true
  · intro isStruct
    exact absurd (isStruct.symm.trans isUnion) Bool.false_ne_true
  · rw [alignment]
    rcases size with size | ⟨_, size⟩
    · rw [size]
      exact isAlignment.dvd_alignUp _
    · rw [size]
      exact isAlignment.dvd_alignUp _
  · intro member isMember occupies
    rw [members] at isMember
    rw [alignment]
    exact isOpen.bounded member isMember occupies
  · intro _ member isMember occupies
    rw [members] at isMember
    exact isOpen.starts member isMember occupies
  · intro _ member isMember occupies
    rw [members] at isMember
    exact Nat.le_trans (isOpen.covered member isMember occupies) large

end Struct

variable {members : List MemberDeclaration}

section

variable {settings : LayoutSettings} {str : Struct}
  (requested : requestedAlignment settings = 0 ∨ IsAlignment (requestedAlignment settings))

include requested

/-- The invariant holds after all declarations of a run that fit. -/
theorem OpenStruct.declareAll (isStruct : settings.isUnion = false)
    (isOpen : OpenStruct settings str) (fit : DeclarationsFit settings str members) :
    OpenStruct settings (members.foldl (Struct.declare settings) str) := by
  induction members generalizing str with
  | nil => exact isOpen
  | cons member members ih => exact ih (isOpen.declare requested isStruct fit.1) fit.2

theorem OpenUnion.declareAll (isUnion : settings.isUnion = true) (isOpen : OpenUnion settings str)
    (fit : DeclarationsFit settings str members) :
    OpenUnion settings (members.foldl (Struct.declare settings) str) := by
  induction members generalizing str with
  | nil => exact isOpen
  | cons member members ih => exact ih (isOpen.declare requested isUnion fit.1) fit.2

end

/-- A layout whose declarations fit is sound. -/
theorem sound_of_fit {settings : LayoutSettings}
    (requested : requestedAlignment settings = 0 ∨ IsAlignment (requestedAlignment settings))
    (fit : DeclarationsFit settings newStruct members) :
    SoundLayout settings (layoutStruct settings members) := by
  cases kind : settings.isUnion with
  | false => exact (openStruct_new.declareAll requested kind fit).sound requested kind
  | true => exact (openUnion_new.declareAll requested kind fit).sound requested kind

end DaveCC.Frontend
