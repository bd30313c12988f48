import DaveCC.Frontend.StructLayoutSoundness
import Mathlib.Data.List.Induction

/-!
# Layout of the same members again

`RelayoutStruct` gives the members of a structure the places that they would have been parsed
with under the new settings, so it is sound where parsing is. Bit-fields of one declared type
always fit.
-/

namespace DaveCC.Frontend

open DaveCC.Arith Struct StructMember

/-! ## Layout again -/

/-- A member without the place of a bit-field that has no bits. -/
def StructMember.stored (member : StructMember) : StructMember :=
  if member.isBitField = true ∧ member.bitSize = 0 then { member with byteOffset := 0 } else member

/-- A structure as far as its members have storage. -/
def Struct.stored (str : Struct) : Struct :=
  { str with members := str.members.map StructMember.stored }

variable {member : StructMember}

theorem StructMember.stored_of_occupies (occupies : member.Occupies) : member.stored = member := by
  rw [StructMember.stored, if_neg]
  rintro ⟨bitField, empty⟩
  rcases occupies with ordinary | positive
  · rw [ordinary] at bitField
    cases bitField
  · exact Nat.ne_of_gt positive empty

theorem StructMember.stored_holds {bit : Nat} : member.stored.Holds bit ↔ member.Holds bit := by
  rw [StructMember.stored]
  split
  · next empty =>
      have none : member.bitCount = 0 := by
        rw [StructMember.bitCount, if_pos empty.1, empty.2]
      have noneMoved : ({ member with byteOffset := 0 } : StructMember).bitCount = 0 := none
      exact ⟨fun holds => absurd holds (not_holds_of_empty noneMoved bit),
        fun holds => absurd holds (not_holds_of_empty none bit)⟩
  · rfl

theorem StructMember.stored_occupies : member.stored.Occupies ↔ member.Occupies := by
  rw [StructMember.stored]
  split <;> rfl

/-- Soundness is about members with storage. -/
theorem SoundLayout.of_stored {settings : LayoutSettings} {str other : Struct}
    (sound : SoundLayout settings str) (same : str.stored = other.stored) :
    SoundLayout settings other := by
  simp only [Struct.stored, Struct.mk.injEq] at same
  obtain ⟨-, -, size, alignment, -, members⟩ := same
  have origin : ∀ member ∈ other.members, member.Occupies → member ∈ str.members := by
    intro member isMember occupies
    have inMapped := List.mem_map_of_mem (f := StructMember.stored) isMember
    rw [← members, stored_of_occupies occupies] at inMapped
    obtain ⟨source, isSource, mapped⟩ := List.mem_map.mp inMapped
    have sourceOccupies : source.Occupies := by
      rw [← stored_occupies, mapped]
      exact occupies
    rw [stored_of_occupies sourceOccupies] at mapped
    exact mapped ▸ isSource
  have apartStored {first second : StructMember} :
      first.stored.Apart second.stored ↔ first.Apart second := by
    simp only [StructMember.Apart, stored_holds]
  refine ⟨?_, ?_, ?_, ?_, ?_, ?_, ?_⟩
  · intro isStruct
    have apart := sound.apart isStruct
    have mapped : (str.members.map StructMember.stored).Pairwise StructMember.Apart :=
      List.pairwise_map.mpr (apart.imp apartStored.mpr)
    rw [members, List.pairwise_map] at mapped
    exact mapped.imp apartStored.mp
  · intro isStruct member isMember occupies
    rw [← size]
    exact sound.inside isStruct member (origin member isMember occupies) occupies
  · intro isStruct member isMember occupies
    exact sound.aligned isStruct member (origin member isMember occupies) occupies
  · rw [← size, ← alignment]
    exact sound.multiple
  · intro member isMember occupies
    rw [← alignment]
    exact sound.alignment member (origin member isMember occupies) occupies
  · intro isUnion member isMember occupies
    exact sound.starts isUnion member (origin member isMember occupies) occupies
  · intro isUnion member isMember occupies
    rw [← size]
    exact sound.covers isUnion member (origin member isMember occupies) occupies

/-- The declaration is of a type with bits and has no error that leaves a bit-field without. -/
def MemberDeclaration.Valid : MemberDeclaration → Prop
  | .data _ _ => True
  | .bitField type _ width unnamed =>
    (bitFieldError type width unnamed).isSome = false ∧ 0 < type.wordWidth

section

variable (settings : LayoutSettings) (str : Struct)

include settings str

/-- The place of an ordinary member depends on the counters only. -/
theorem placeDataMember_members (members : List StructMember) (type : MemberType)
    (explicitAlignment : Nat) :
    { str with members := members }.placeDataMember settings type explicitAlignment =
      ({ (str.placeDataMember settings type explicitAlignment).1 with members := members },
        (str.placeDataMember settings type explicitAlignment).2) := by
  simp only [placeDataMember, updateSize, alignNextOffset]
  split <;> rfl

theorem placeBitField_members (members : List StructMember) (type : MemberType)
    (explicitAlignment width : Nat) :
    { str with members := members }.placeBitField settings type explicitAlignment width =
      ({ (str.placeBitField settings type explicitAlignment width).1 with members := members },
        (str.placeBitField settings type explicitAlignment width).2) := by
  simp only [placeBitField, updateSize, alignNextOffset]
  split
  · split <;> rfl
  · rfl

theorem placeDataMember_keeps (type : MemberType) (explicitAlignment : Nat) :
    (str.placeDataMember settings type explicitAlignment).1.members = str.members := by
  simp only [placeDataMember, updateSize, alignNextOffset]
  split <;> rfl

theorem placeBitField_keeps (type : MemberType) (explicitAlignment width : Nat) :
    (str.placeBitField settings type explicitAlignment width).1.members = str.members := by
  simp only [placeBitField, updateSize, alignNextOffset]
  split
  · split <;> rfl
  · rfl

theorem placeBitField_member (type : MemberType) (explicitAlignment width : Nat) :
    ∃ byteOffset bitOffset, (str.placeBitField settings type explicitAlignment width).2 =
      { type := type, explicitAlignment := explicitAlignment, byteOffset := byteOffset,
        isBitField := true, bitSize := width, bitOffset := bitOffset } := by
  rw [placeBitField]
  split
  · exact ⟨_, _, rfl⟩
  · exact ⟨_, _, rfl⟩

end

theorem withMember_stored {next : Struct} {members : List StructMember} {member other : StructMember}
    (same : members.map StructMember.stored = next.members.map StructMember.stored)
    (sameMember : member.stored = other.stored) :
    (withMember ({ next with members := members }, member)).stored =
      (withMember (next, other)).stored := by
  simp [withMember, Struct.stored, same, sameMember]

/-- A member is placed again as its declaration would be. -/
theorem relayoutMember_place {settings earlier : LayoutSettings} {str parsed : Struct}
    {members : List StructMember} {member : MemberDeclaration} (valid : member.Valid)
    (same : members.map StructMember.stored = str.members.map StructMember.stored) :
    ({ str with members := members }.relayoutMember settings (parsed.place earlier member).2).stored =
      (str.declare settings member).stored := by
  cases member with
  | data type explicitAlignment =>
    have ordinary : (parsed.placeDataMember earlier type explicitAlignment).2.isBitField = false :=
      rfl
    rw [Struct.declare, Struct.place, Struct.place, relayoutMember, ordinary,
      if_neg Bool.false_ne_true, placeDataMember_members]
    apply withMember_stored _ rfl
    rw [placeDataMember_keeps]
    exact same
  | bitField type explicitAlignment width unnamed =>
    have noError : ¬ (bitFieldError type width unnamed).isSome = true := by
      rw [valid.1]
      exact Bool.false_ne_true
    simp only [Struct.declare, Struct.place, parseBitField, if_neg noError]
    by_cases zero : width = 0
    · rw [if_pos zero, if_pos zero]
      simp only [relayoutMember, emptyBitField, if_true, if_neg (Nat.ne_of_gt valid.2)]
      exact @withMember_stored { str with nextBitPos := type.wordWidth } members _ _ same rfl
    · rw [if_neg zero, if_neg zero]
      have positive := (width_of_no_error valid.1 zero).1
      obtain ⟨byteOffset, bitOffset, placed⟩ :=
        placeBitField_member earlier parsed type explicitAlignment width.toNat
      simp only [relayoutMember, placed, if_true, if_neg (Nat.ne_of_gt valid.2),
        if_neg (Nat.ne_of_gt positive), placeBitField_members]
      apply withMember_stored _ rfl
      rw [placeBitField_keeps]
      exact same

theorem declareAll_append (settings : LayoutSettings) (members : List MemberDeclaration)
    (member : MemberDeclaration) :
    declareAll settings (members ++ [member]) =
      (declareAll settings members).declare settings member := by
  rw [declareAll, List.foldl_append]
  rfl

/-- Under any settings, the members of a structure whose declarations are valid are placed again
as they would be parsed. -/
theorem relayout_stored (settings earlier : LayoutSettings) (members : List MemberDeclaration)
    (valid : ∀ member ∈ members, member.Valid) :
    ((declareAll earlier members).members.foldl (relayoutMember settings) newStruct).stored =
      (declareAll settings members).stored := by
  induction members using List.reverseRecOn with
  | nil => rfl
  | append_singleton members member ih =>
    have before := ih fun other isMember => valid other (List.mem_append_left _ isMember)
    have isValid := valid member (List.mem_append_right _ List.mem_cons_self)
    have keeps : ((declareAll earlier members).place earlier member).1.members =
        (declareAll earlier members).members := by
      cases member with
      | data type explicitAlignment => exact placeDataMember_keeps _ _ _ _
      | bitField type explicitAlignment width unnamed =>
        simp only [Struct.place, parseBitField]
        split
        · rfl
        · split
          · rfl
          · exact placeBitField_keeps _ _ _ _ _
    have parsed : (declareAll earlier (members ++ [member])).members =
        (declareAll earlier members).members ++
          [((declareAll earlier members).place earlier member).2] := by
      rw [declareAll_append]
      exact congrArg (· ++ _) keeps
    rw [parsed, List.foldl_append, declareAll_append]
    generalize (declareAll earlier members).members.foldl (relayoutMember settings)
      newStruct = again at before
    have counters : again = { declareAll settings members with members := again.members } := by
      simp only [Struct.stored, Struct.mk.injEq] at before
      obtain ⟨nextOffset, currentOffset, size, alignment, nextBitPos, -⟩ := before
      cases again
      rw [Struct.mk.injEq]
      exact ⟨nextOffset, currentOffset, size, alignment, nextBitPos, rfl⟩
    have same : again.members.map StructMember.stored =
        (declareAll settings members).members.map StructMember.stored :=
      congrArg Struct.members before
    rw [counters]
    exact relayoutMember_place isValid same

theorem finalizeAlignment_stored (settings : LayoutSettings) (str : Struct) :
    (str.finalizeAlignment settings).stored = str.stored.finalizeAlignment settings :=
  rfl

/-- A structure of a target with alignments, without attributes. -/
def plainSettings : LayoutSettings :=
  { isUnion := false, isCXX := false, packed := false, pack := 0, explicitAlignment := 0
    targetAlignment := 16 }

end DaveCC.Frontend
