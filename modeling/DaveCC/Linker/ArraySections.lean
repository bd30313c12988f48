import DaveCC.Container.Qsort
import DaveCC.Linker.Collection
import Mathlib.Data.List.TakeWhile

/-!
# Array sections

`LinkerGroupArraySections`: the sections of initialization and termination functions are sorted
and put into one group for each output array, and `GroupSections` passes over them.
-/

namespace DaveCC.Linking

open DaveCC.Container

def shtNote : BitVec 32 := 7

def shfWrite : BitVec 64 := 0x1

/-- `LinkerArrayOutputType`. -/
def LinkerArrayKind.outputType : LinkerArrayKind → BitVec 32
  | .preinit => shtPreinitArray
  | .init => shtInitArray
  | .fini => shtFiniArray

structure LinkerArraySectionEntry where
  input : ELFReaderSection
  fileIndex : ℕ
  sectionIndex : ℕ
  priority : ℕ
  deriving DecidableEq, Repr

def LinkerArraySectionEntry.id (entry : LinkerArraySectionEntry) : SectionId :=
  ⟨entry.fileIndex, entry.sectionIndex⟩

/-- A difference of two indices as an `int`. -/
def intDifference (left right : ℕ) : ℤ := (BitVec.ofInt 32 ((left : ℤ) - right)).toInt

def compareLinkerArraySectionEntries (first second : LinkerArraySectionEntry) : ℤ :=
  if first.priority ≠ second.priority then (first.priority : ℤ) - second.priority
  else if first.fileIndex ≠ second.fileIndex then
    intDifference first.fileIndex second.fileIndex
  else intDifference first.sectionIndex second.sectionIndex

/-- What is read of a `SectionGroup` whose components are input sections. -/
structure SectionGroup where
  name : Name
  type : BitVec 32
  flags : BitVec 64
  alignment : ℕ
  components : List SectionId := []
  deriving DecidableEq, Repr

/-- A section becomes the last component of a group in `LinkerBuildArraySectionGroup`. -/
def SectionGroup.addEntry (group : SectionGroup) (entry : LinkerArraySectionEntry) :
    SectionGroup :=
  { group with
    alignment :=
      if group.alignment < entry.input.addralign then entry.input.addralign else group.alignment
    flags := if entry.input.flags ≠ 0 then entry.input.flags else group.flags
    components := group.components ++ [entry.id] }

/-- `LinkerBuildArraySectionGroup` of sorted entries. -/
def linkerBuildArraySectionGroup (pointerSize : ℕ) (kind : LinkerArrayKind)
    (entries : List LinkerArraySectionEntry) : Option SectionGroup :=
  match entries with
  | [] => none
  | first :: _ =>
    let alignment := first.input.addralign
    some (entries.foldl SectionGroup.addEntry
      { name := kind.canonicalName, type := kind.outputType
        flags := if first.input.flags ≠ 0 then first.input.flags else shfAlloc ||| shfWrite
        alignment := if pointerSize < alignment then alignment else pointerSize })

/-- What `BuildOutputSection` writes: the contents of the components, one after another. -/
def SectionGroup.contents {Entry : Type*} (group : SectionGroup)
    (contentsOf : SectionId → List Entry) : List Entry :=
  group.components.flatMap contentsOf

/-- `RegionAllocateAddress` for a group at an address: where the group and the component are.
There is no address in a region that is full. -/
def regionAllocateAddress (alignment configEnd size lastSegmentEnd address next : ℕ) :
    Option (ℕ × ℕ) :=
  let next := if next = 0 then lastSegmentEnd else next
  let aligned := (next + alignment - 1) / alignment * alignment
  let (address, next) :=
    if next = address ∧ 1 < alignment then (aligned, aligned) else (address, next)
  if configEnd ≠ 0 ∧ configEnd < next + size then none else some (address, next)

/-- The addresses of the components of a group, whose sizes are given, in a region. -/
def allocateComponents (alignment configEnd : ℕ) : List ℕ → ℕ → ℕ → ℕ → Option (List ℕ)
  | [], _, _, _ => some []
  | size :: sizes, address, next, lastEnd => do
    let (address, place) ← regionAllocateAddress alignment configEnd size lastEnd address next
    let places ← allocateComponents alignment configEnd sizes address (place + size) (place + size)
    return place :: places

/-- The addresses of a group from the next one of its region, or where the segment is. -/
def SectionGroup.addresses (group : SectionGroup) (configEnd next addr : ℕ)
    (sizeOf : SectionId → ℕ) : Option (List ℕ) :=
  allocateComponents group.alignment configEnd (group.components.map sizeOf)
    (if next = 0 then addr else next) next addr

namespace Linker

variable (linker : Linker)

/-- The entry of a section in the vector of an array. -/
def arrayMember? (kind : LinkerArrayKind) (id : SectionId) : Option LinkerArraySectionEntry :=
  (linker.section? id).bind fun input =>
    if input.discarded then none
    else
      match linkerClassifyArraySection input with
      | none => none
      | some (itsKind, priority) =>
        if itsKind = kind then some ⟨input, id.file, id.index, priority⟩ else none

/-- The entries that `LinkerGroupArraySections` collects for an array. -/
def arrayEntries (kind : LinkerArrayKind) : List LinkerArraySectionEntry :=
  linker.sectionIds.filterMap (linker.arrayMember? kind)

/-- The sections that `GroupSections` puts into groups. The linker script places sections by
their names. -/
def groupSections (machine : ℕ) (isPlaced : Name → Bool) (sectionType : BitVec 32)
    (sectionFlags : BitVec 64) : List SectionId :=
  linker.sectionIds.filter fun id => (linker.section? id).any fun input =>
    groupingType machine input == sectionType && !input.discarded &&
      (sectionFlags == 0 || input.flags &&& sectionFlags != 0 ||
        sectionType == shtProgbits && isPlaced input.name) &&
      !(sectionType == shtProgbits && (linkerClassifyArraySection input).isSome)

/-- The types of the sections that are grouped with `GroupSections`. -/
def groupedTypes : List (BitVec 32) := [shtProgbits, shtNobits, shtNote, shtARMExidx]

/-- An array has a section that is not discarded. -/
def IsArrayInput (kind : LinkerArrayKind) (id : SectionId) : Prop :=
  ∃ input priority, linker.section? id = some input ∧ input.discarded = false ∧
    linkerClassifyArraySection input = some (kind, priority)

/-- The indices of files and of their sections differ by an `int`. -/
def IntIndices : Prop :=
  linker.files.length < 2 ^ 31 ∧ ∀ file, (linker.file file).sections.length < 2 ^ 31

variable {linker} {kind : LinkerArrayKind} {id : SectionId} {entry : LinkerArraySectionEntry}

theorem nodup_sectionIds (linker : Linker) : linker.sectionIds.Nodup := by
  apply List.nodup_flatMap.mpr
  constructor
  · intro file _
    exact List.nodup_range.map fun left right same => (SectionId.mk.inj same).2
  · apply List.nodup_range.imp
    intro left right different id inLeft inRight
    have ⟨_, _, isLeft⟩ := List.mem_map.mp inLeft
    have ⟨_, _, isRight⟩ := List.mem_map.mp inRight
    exact different (SectionId.mk.inj (isLeft.trans isRight.symm)).1

theorem arrayMember?_eq_some_iff :
    linker.arrayMember? kind id = some entry ↔
      entry.id = id ∧ linker.section? id = some entry.input ∧ entry.input.discarded = false ∧
        linkerClassifyArraySection entry.input = some (kind, entry.priority) := by
  rw [arrayMember?, Option.bind_eq_some_iff]
  constructor
  · rintro ⟨input, found, isEntry⟩
    split at isEntry
    · cases isEntry
    next kept =>
      split at isEntry
      · cases isEntry
      next itsKind priority classified =>
        split at isEntry
        · next same =>
          cases isEntry
          exact ⟨rfl, found, Bool.eq_false_of_not_eq_true kept, same ▸ classified⟩
        · cases isEntry
  · rintro ⟨rfl, found, kept, classified⟩
    refine ⟨entry.input, found, ?_⟩
    rw [kept, classified]
    simp [LinkerArraySectionEntry.id]

theorem nodup_arrayEntries (linker : Linker) (kind : LinkerArrayKind) :
    ((linker.arrayEntries kind).map (·.id)).Nodup := by
  rw [arrayEntries, List.map_filterMap]
  apply (nodup_sectionIds linker).filterMap
  have isSame {id other : SectionId}
      (isId : other ∈ (linker.arrayMember? kind id).map (·.id)) : other = id := by
    have ⟨entry, isEntry, same⟩ := Option.map_eq_some_iff.mp isId
    exact same.symm.trans (arrayMember?_eq_some_iff.mp isEntry).1
  exact fun left right id inLeft inRight => (isSame inLeft).symm.trans (isSame inRight)

theorem section?_entry (isEntry : entry ∈ linker.arrayEntries kind) :
    linker.section? entry.id = some entry.input ∧ entry.input.discarded = false ∧
      linkerClassifyArraySection entry.input = some (kind, entry.priority) := by
  have ⟨id, _, isIt⟩ := List.mem_filterMap.mp isEntry
  have ⟨same, found, rest⟩ := arrayMember?_eq_some_iff.mp isIt
  exact ⟨same ▸ found, rest⟩

theorem mem_arrayEntries_iff :
    id ∈ (linker.arrayEntries kind).map (·.id) ↔
      linker.IsArrayInput kind id := by
  rw [List.mem_map]
  constructor
  · rintro ⟨entry, isEntry, rfl⟩
    exact ⟨entry.input, entry.priority, section?_entry isEntry⟩
  · rintro ⟨input, priority, found, kept, classified⟩
    refine ⟨⟨input, id.file, id.index, priority⟩, List.mem_filterMap.mpr ⟨id, ?_, ?_⟩, rfl⟩
    · exact mem_sectionIds_of_section? found
    · exact arrayMember?_eq_some_iff.mpr ⟨rfl, found, kept, classified⟩

theorem IsArrayInput.unique {other : LinkerArrayKind} (isInput : linker.IsArrayInput kind id)
    (isOther : linker.IsArrayInput other id) : kind = other := by
  have ⟨input, _, found, _, classified⟩ := isInput
  have ⟨_, _, foundOther, _, classifiedOther⟩ := isOther
  cases found.symm.trans foundOther
  exact (Prod.mk.inj (Option.some.inj (classified.symm.trans classifiedOther))).1

theorem IsArrayInput.not_mem_groupSections {machine : ℕ} {isPlaced : Name → Bool}
    {sectionType : BitVec 32} {sectionFlags : BitVec 64} (isInput : linker.IsArrayInput kind id)
    (isGrouped : sectionType ∈ groupedTypes) :
    id ∉ linker.groupSections machine isPlaced sectionType sectionFlags := by
  intro isMember
  have ⟨input, priority, found, _, classified⟩ := isInput
  have ⟨_, passed⟩ := List.mem_filter.mp isMember
  rw [found, Option.any_some, classified] at passed
  simp only [Option.isSome_some, Bool.and_true, Bool.and_eq_true, beq_iff_eq,
    Bool.not_eq_true', beq_eq_false_iff_ne] at passed
  obtain ⟨⟨⟨hasType, _⟩, _⟩, notProgbits⟩ := passed
  have isType : input.type = shtPreinitArray ∨ input.type = shtInitArray ∨
      input.type = shtFiniArray ∨ input.type = shtProgbits := by
    rw [linkerClassifyArraySection] at classified
    grind
  have ungrouped : ∀ type ∈ [shtPreinitArray, shtInitArray, shtFiniArray, shtProgbits],
      type ≠ shtX86Unwind ∧ (type ∈ groupedTypes → type = shtProgbits) := by
    simp [groupedTypes, shtPreinitArray, shtInitArray, shtFiniArray, shtProgbits, shtNobits,
      shtNote, shtARMExidx, shtX86Unwind]
  have isIt := ungrouped input.type (by simpa using isType)
  rw [groupingType, if_neg fun unwind => isIt.1 unwind.2.1] at hasType
  exact notProgbits (hasType ▸ isIt.2 (hasType ▸ isGrouped))

end Linker

section Order

variable {linker : Linker} {kind : LinkerArrayKind}

/-- An entry comes before another by its priority, its file and its place there. -/
def LinkerArraySectionEntry.Before (first second : LinkerArraySectionEntry) : Prop :=
  first.priority < second.priority ∨ first.priority = second.priority ∧
    (first.fileIndex < second.fileIndex ∨
      first.fileIndex = second.fileIndex ∧ first.sectionIndex < second.sectionIndex)

/-- The place of an entry in the order, as long as the indices are of `int`. -/
def LinkerArraySectionEntry.rank (entry : LinkerArraySectionEntry) : ℤ :=
  entry.priority * 2 ^ 62 + entry.fileIndex * 2 ^ 31 + entry.sectionIndex

open LinkerArraySectionEntry (Before rank)

theorem intDifference_eq {left right : ℕ} (leftSmall : left < 2 ^ 31) (rightSmall : right < 2 ^ 31) :
    intDifference left right = (left : ℤ) - right := by
  rw [intDifference, BitVec.toInt_ofInt]
  exact Int.bmod_eq_of_le (by omega) (by omega)

variable (small : linker.IntIndices)

include small

theorem index_lt_of_mem {entry : LinkerArraySectionEntry}
    (isEntry : entry ∈ linker.arrayEntries kind) :
    entry.fileIndex < 2 ^ 31 ∧ entry.sectionIndex < 2 ^ 31 := by
  have found := (Linker.section?_entry isEntry).1
  have ⟨index, _⟩ := List.getElem?_eq_some_iff.mp found
  have ⟨file, isFile, isId⟩ := List.mem_flatMap.mp (mem_sectionIds_of_section? found)
  have ⟨_, _, same⟩ := List.mem_map.mp isId
  cases same
  exact ⟨(List.mem_range.mp isFile).trans small.1, index.trans (small.2 _)⟩

theorem compare_eq_rank {first second : LinkerArraySectionEntry}
    (isFirst : first ∈ linker.arrayEntries kind) (isSecond : second ∈ linker.arrayEntries kind) :
    (compareLinkerArraySectionEntries first second < 0 ↔ first.rank < second.rank) ∧
      (0 < compareLinkerArraySectionEntries first second ↔ second.rank < first.rank) ∧
      (compareLinkerArraySectionEntries first second = 0 ↔ first.rank = second.rank) := by
  have ⟨firstFile, firstIndex⟩ := index_lt_of_mem small isFirst
  have ⟨secondFile, secondIndex⟩ := index_lt_of_mem small isSecond
  rw [compareLinkerArraySectionEntries, intDifference_eq firstFile secondFile, intDifference_eq
    firstIndex secondIndex, LinkerArraySectionEntry.rank, LinkerArraySectionEntry.rank]
  split
  · omega
  · split
    · omega
    · omega

/-- Every outcome of the sort is in the order of priorities, files and places. -/
theorem before_of_qsorted {sorted : List LinkerArraySectionEntry}
    (outcome : Qsorted compareLinkerArraySectionEntries (linker.arrayEntries kind) sorted) :
    sorted.Pairwise Before := by
  have ranks := @Qsorted.sorted_of_follows _ _ rank _ _ outcome
    (fun first isFirst second isSecond less =>
      ⟨(compare_eq_rank small isFirst isSecond).1.mpr less,
        (compare_eq_rank small isSecond isFirst).2.1.mpr less⟩)
    fun first isFirst second isSecond => (compare_eq_rank small isFirst isSecond).2.2.mpr
  have distinct : (sorted.map (·.id)).Nodup :=
    (outcome.perm.map _).nodup_iff.mpr (Linker.nodup_arrayEntries linker kind)
  apply (ranks.and (List.pairwise_map.mp distinct)).imp_of_mem
  intro first second isFirst isSecond ⟨atMost, different⟩
  have ⟨secondFile, secondIndex⟩ := index_lt_of_mem small (outcome.perm.mem_iff.mp isSecond)
  simp only [rank] at atMost
  simp only [LinkerArraySectionEntry.id, ne_eq, SectionId.mk.injEq] at different
  rcases lt_trichotomy first.priority second.priority with less | same | greater
  · exact Or.inl less
  · refine Or.inr ⟨same, ?_⟩
    rcases lt_trichotomy first.fileIndex second.fileIndex with less | sameFile | greater
    · exact Or.inl less
    · exact Or.inr ⟨sameFile, lt_of_le_of_ne (by omega) fun sameIndex =>
        different ⟨sameFile, sameIndex⟩⟩
    · omega
  · omega

end Order

/-! ## Priorities -/

def LinkerArrayKind.plainPriority : LinkerArrayKind → ℕ
  | .preinit => 0
  | .init | .fini => linkerArrayDefaultPriority

def decimal (digits : Name) : ℕ :=
  digits.foldl (fun value digit => 10 * value + (digit - 0x30).toNat) 0

/-- The priority of a section for an array. Numbered constructors and destructors have none. -/
inductive HasPriority (kind : LinkerArrayKind) (input : ELFReaderSection) : ℕ → Prop
  | plain : input.type = kind.outputType → input.name = kind.canonicalName →
      HasPriority kind input kind.plainPriority
  | numbered (digits : Name) : input.type = kind.outputType → digits ≠ [] →
      (∀ digit ∈ digits, isDigit digit = true) → decimal digits ≤ 65535 →
      input.name = kind.canonicalName ++ 0x2e :: digits → HasPriority kind input (decimal digits)
  | legacy : input.type = shtProgbits → kind = .init ∧ input.name = asciiName ".ctors" ∨
      kind = .fini ∧ input.name = asciiName ".dtors" →
      HasPriority kind input linkerArrayDefaultPriority

theorem strtoul_digits {digits : Name} (someDigits : digits ≠ [])
    (areDigits : ∀ digit ∈ digits, isDigit digit = true) (small : decimal digits ≤ 65535) :
    strtoul digits = (BitVec.ofNat 64 (decimal digits), []) := by
  have allDigits : digits.takeWhile isDigit = digits := List.takeWhile_eq_self_iff.mpr areDigits
  have notOther : ∀ character, isDigit character = true →
      isSpace character = false ∧ character ≠ 0x2d ∧ character ≠ 0x2b := by decide
  cases digits with
  | nil => exact absurd rfl someDigits
  | cons digit rest =>
    have ⟨notSpace, notMinus, notPlus⟩ := notOther digit (areDigits digit List.mem_cons_self)
    have spaceless : (digit :: rest).dropWhile isSpace = digit :: rest :=
      List.dropWhile_cons_of_neg (by simp [notSpace])
    rw [strtoul]
    simp only [spaceless]
    split
    · next same => exact absurd (List.cons.inj same).1 notMinus
    · next same => exact absurd (List.cons.inj same).1 notPlus
    · rw [allDigits, if_neg someDigits, ← decimal, if_neg (by omega), List.drop_length]
      rfl

theorem linkerParseArrayPrioritySuffix_numbered {base digits : Name} (default : ℕ)
    (someDigits : digits ≠ []) (areDigits : ∀ digit ∈ digits, isDigit digit = true)
    (small : decimal digits ≤ 65535) :
    linkerParseArrayPrioritySuffix (base ++ 0x2e :: digits) base default =
      some (decimal digits) := by
  have value : (BitVec.ofNat 64 (decimal digits)).toNat = decimal digits :=
    Nat.mod_eq_of_lt (by omega)
  have suffix : (base ++ 0x2e :: digits).drop (base.length + 1) = digits := by
    rw [← List.drop_drop, List.drop_left]
    rfl
  rw [linkerParseArrayPrioritySuffix, if_neg (by simp), if_neg (by simp), suffix]
  simp [someDigits, strtoul_digits someDigits areDigits small, value, BitVec.lt_def, small,
    Ne.symm someDigits]

variable {input : ELFReaderSection}

theorem linkerClassifyArraySection_outputType {kind : LinkerArrayKind}
    (isType : input.type = kind.outputType) :
    linkerClassifyArraySection input =
      some (kind, (linkerParseArrayPrioritySuffix input.name kind.canonicalName
        kind.plainPriority).getD kind.plainPriority) := by
  rw [linkerClassifyArraySection, isType]
  cases kind with
  | preinit => rfl
  | init => rfl
  | fini => rfl

/-- The priority is the one that the linker finds. -/
theorem HasPriority.classified {kind : LinkerArrayKind} {priority : ℕ}
    (has : HasPriority kind input priority) :
    linkerClassifyArraySection input = some (kind, priority) := by
  cases has with
  | plain isType isName =>
    rw [linkerClassifyArraySection_outputType isType, isName, linkerParseArrayPrioritySuffix,
      if_pos rfl, Option.getD_some]
  | numbered digits isType someDigits areDigits small isName =>
    rw [linkerClassifyArraySection_outputType isType, isName,
      linkerParseArrayPrioritySuffix_numbered _ someDigits areDigits small, Option.getD_some]
  | legacy isType isName =>
    rw [linkerClassifyArraySection, isType]
    rcases isName with ⟨rfl, isName⟩ | ⟨rfl, isName⟩
    · rw [isName]
      rfl
    · rw [isName]
      rfl

variable {alignment configEnd address next : ℕ}

/-- A component other than the first is where the one before it ends. -/
theorem regionAllocateAddress_aligned {size : ℕ} {places : ℕ × ℕ}
    (aligned : 1 < alignment → alignment ∣ address)
    (allocated : regionAllocateAddress alignment configEnd size next address next = some places) :
    places = (address, next) := by
  have same : (if next = 0 then next else next) = next := ite_self next
  rw [regionAllocateAddress, same] at allocated
  simp only [Option.ite_none_left_eq_some] at allocated
  have ⟨_, isPlaced⟩ := allocated
  split at isPlaced
  · next first =>
    have ⟨times, isMultiple⟩ := aligned first.2
    have unmoved : (address + alignment - 1) / alignment * alignment = address := by
      rw [isMultiple, Nat.add_sub_assoc first.2.le, Nat.mul_add_div (Nat.zero_lt_of_lt first.2),
        Nat.div_eq_of_lt (Nat.sub_lt (Nat.zero_lt_of_lt first.2) one_pos), Nat.add_zero,
        Nat.mul_comm]
    rw [first.1, unmoved] at isPlaced
    cases isPlaced
    rw [first.1]
  · cases isPlaced
    rfl

theorem scanl_of_allocateComponents {sizes places : List ℕ}
    (aligned : 1 < alignment → alignment ∣ address)
    (allocated : allocateComponents alignment configEnd sizes address next next = some places) :
    ∃ finish, sizes.scanl (· + ·) next = places ++ [finish] := by
  induction sizes generalizing next places with
  | nil =>
    cases allocated
    exact ⟨next, rfl⟩
  | cons size sizes follows =>
    have ⟨placed, isPlaced, rest⟩ := Option.bind_eq_some_iff.mp allocated
    cases regionAllocateAddress_aligned aligned isPlaced
    have ⟨later, isLater, isIt⟩ := Option.bind_eq_some_iff.mp rest
    cases isIt
    have ⟨finish, isScan⟩ := follows isLater
    exact ⟨finish, by rw [List.scanl_cons, isScan]; rfl⟩

variable {group : SectionGroup}

/-- The components of a group follow one another without gaps. -/
theorem SectionGroup.addresses_scanl {addr : ℕ} {sizeOf : SectionId → ℕ} {places : List ℕ}
    (allocated : group.addresses configEnd next addr sizeOf = some places) :
    ∃ start finish, (group.components.map sizeOf).scanl (· + ·) start = places ++ [finish] := by
  rw [SectionGroup.addresses] at allocated
  cases components : group.components.map sizeOf with
  | nil =>
    rw [components] at allocated
    cases allocated
    exact ⟨next, next, rfl⟩
  | cons size sizes =>
    rw [components] at allocated
    have ⟨placed, isPlaced, rest⟩ := Option.bind_eq_some_iff.mp allocated
    have ⟨later, isLater, isIt⟩ := Option.bind_eq_some_iff.mp rest
    cases isIt
    have aligned : 1 < group.alignment → group.alignment ∣ placed.1 := by
      intro isAligned
      rw [regionAllocateAddress] at isPlaced
      simp only [true_and, isAligned, if_true, Option.ite_none_left_eq_some] at isPlaced
      cases isPlaced.2
      exact Nat.dvd_mul_left _ _
    have ⟨finish, isScan⟩ := scanl_of_allocateComponents aligned isLater
    exact ⟨placed.2, finish, by rw [List.scanl_cons, isScan]; rfl⟩

variable {linker : Linker} {kind : LinkerArrayKind} {id : SectionId}

theorem components_foldl_addEntry (entries : List LinkerArraySectionEntry) (group : SectionGroup) :
    (entries.foldl SectionGroup.addEntry group).components =
      group.components ++ entries.map (·.id) := by
  induction entries generalizing group with
  | nil => simp
  | cons entry entries follows =>
    rw [List.foldl_cons, follows, SectionGroup.addEntry, List.map_cons, List.append_assoc]
    rfl

theorem header_foldl_addEntry (entries : List LinkerArraySectionEntry) (group : SectionGroup) :
    (entries.foldl SectionGroup.addEntry group).name = group.name ∧
      (entries.foldl SectionGroup.addEntry group).type = group.type := by
  induction entries generalizing group with
  | nil => exact ⟨rfl, rfl⟩
  | cons entry entries follows => exact follows _

theorem linkerBuildArraySectionGroup_eq_some {pointerSize : ℕ}
    {entries : List LinkerArraySectionEntry}
    (isGroup : linkerBuildArraySectionGroup pointerSize kind entries = some group) :
    group.name = kind.canonicalName ∧ group.type = kind.outputType ∧
      group.components = entries.map (·.id) := by
  cases entries with
  | nil => cases isGroup
  | cons first entries =>
    cases isGroup
    exact ⟨(header_foldl_addEntry _ _).1, (header_foldl_addEntry _ _).2,
      components_foldl_addEntry _ _⟩

/-- The priority of a section of a link for an array. -/
def Linker.HasPriority (linker : Linker) (kind : LinkerArrayKind) (id : SectionId)
    (priority : ℕ) : Prop :=
  ∃ input, linker.section? id = some input ∧ Linking.HasPriority kind input priority

/-- A section comes before another by its priority, if both have one, and then by its file and
its place there. -/
def Linker.Ordered (linker : Linker) (kind : LinkerArrayKind) (first second : SectionId) : Prop :=
  ∀ priority priority', linker.HasPriority kind first priority →
    linker.HasPriority kind second priority' →
      priority < priority' ∨ priority = priority' ∧
        (first.file < second.file ∨ first.file = second.file ∧ first.index < second.index)

/-- The sections of an array come one after another in one group, by their priorities. -/
theorem arraySections_merged {Entry : Type*} (linker : Linker) (pointerSize machine : ℕ)
    (isPlaced : Name → Bool) (sorted : LinkerArrayKind → List LinkerArraySectionEntry)
    (small : linker.IntIndices)
    (outcome : ∀ kind, Qsorted compareLinkerArraySectionEntries (linker.arrayEntries kind) (sorted
      kind)) (kind : LinkerArrayKind) :
    (linkerBuildArraySectionGroup pointerSize kind (sorted kind) = none ↔
      ∀ id, ¬ linker.IsArrayInput kind id) ∧
    ∀ group, linkerBuildArraySectionGroup pointerSize kind (sorted kind) = some group →
      group.name = kind.canonicalName ∧ group.type = kind.outputType ∧
      group.components.Nodup ∧ (∀ id, id ∈ group.components ↔ linker.IsArrayInput kind id) ∧
      group.components.Pairwise (linker.Ordered kind) ∧
      (∀ contentsOf : SectionId → List Entry,
        group.contents contentsOf = (group.components.map contentsOf).flatten) ∧
      (∀ configEnd next addr sizeOf places,
        group.addresses configEnd next addr sizeOf = some places →
        ∃ start finish, (group.components.map sizeOf).scanl (· + ·) start = places ++ [finish]) ∧
      ∀ id ∈ group.components,
        (∀ sectionType ∈ Linker.groupedTypes, ∀ sectionFlags,
          id ∉ linker.groupSections machine isPlaced sectionType sectionFlags) ∧
        ∀ other otherGroup, other ≠ kind →
          linkerBuildArraySectionGroup pointerSize other (sorted other) = some otherGroup →
          id ∉ otherGroup.components := by
  have isInput (kind : LinkerArrayKind) (id : SectionId) :
      id ∈ (sorted kind).map (·.id) ↔ linker.IsArrayInput kind id :=
    ((outcome kind).perm.map _).mem_iff.trans Linker.mem_arrayEntries_iff
  constructor
  · cases entries : sorted kind with
    | nil =>
      simp only [linkerBuildArraySectionGroup, true_iff]
      intro id isIt
      have isMember := (isInput kind id).mpr isIt
      rw [entries] at isMember
      exact List.not_mem_nil isMember
    | cons first rest =>
      simp only [linkerBuildArraySectionGroup, reduceCtorEq, false_iff, not_forall, not_not]
      exact ⟨first.id, (isInput kind first.id).mp (by simp [entries])⟩
  · intro group isGroup
    have ⟨isName, isType, components⟩ := linkerBuildArraySectionGroup_eq_some isGroup
    have ordered := before_of_qsorted small (outcome kind)
    refine ⟨isName, isType, ?_, ?_, ?_, fun contentsOf => List.flatMap_def, ?_, ?_⟩
    · rw [components]
      exact ((outcome kind).perm.map _).nodup_iff.mpr (Linker.nodup_arrayEntries linker kind)
    · intro id
      rw [components]
      exact isInput kind id
    · rw [components, List.pairwise_map]
      apply ordered.imp_of_mem
      intro first second isFirst isSecond before priority priority' ⟨input, found, has⟩
        ⟨input', found', has'⟩
      have ⟨foundFirst, _, classified⟩ :=
        Linker.section?_entry ((outcome kind).perm.mem_iff.mp isFirst)
      have ⟨foundSecond, _, classified'⟩ :=
        Linker.section?_entry ((outcome kind).perm.mem_iff.mp isSecond)
      cases foundFirst.symm.trans found
      cases foundSecond.symm.trans found'
      cases classified.symm.trans has.classified
      cases classified'.symm.trans has'.classified
      exact before
    · exact fun configEnd next addr sizeOf places => SectionGroup.addresses_scanl
    · intro id isMember
      rw [components, isInput] at isMember
      constructor
      · exact fun sectionType isGrouped sectionFlags =>
          isMember.not_mem_groupSections isGrouped
      · intro other otherGroup different isOther isOtherMember
        rw [(linkerBuildArraySectionGroup_eq_some isOther).2.2, isInput] at isOtherMember
        exact different (isOtherMember.unique isMember)

/-- A link of one file with a numbered section of an array and a plain one. -/
def arraysLink : Linker :=
  { files := [{ ObjectFile.empty with
      sections := [
        { name := asciiName ".preinit_array.5", type := shtPreinitArray, flags := 3
          addralign := 8, size := 8, discarded := false, gcRefs := [] },
        { name := asciiName ".preinit_array", type := shtPreinitArray, flags := 3
          addralign := 8, size := 8, discarded := false, gcRefs := [] }] }]
    globalSymbolTable := .init 1009, errors := [] }

theorem qsorted_arraysLink (kind : LinkerArrayKind) :
    Qsorted compareLinkerArraySectionEntries (arraysLink.arrayEntries kind)
      (arraysLink.arrayEntries kind).reverse where
  perm := List.reverse_perm _
  ascending _ := by cases kind <;> decide

theorem arraySections_merged_arraysLink :
    ∃ group, linkerBuildArraySectionGroup 8 .preinit
      (arraysLink.arrayEntries .preinit).reverse = some group ∧
        group.components.Pairwise (arraysLink.Ordered .preinit) :=
  have small : arraysLink.IntIndices := by
    refine ⟨by decide, fun file => ?_⟩
    cases file with
    | zero => decide
    | succ file => exact Nat.two_pow_pos 31
  ⟨_, rfl, ((@arraySections_merged ℕ arraysLink 8 62 (fun _ => false)
    (fun kind => (arraysLink.arrayEntries kind).reverse) small qsorted_arraysLink
    .preinit).2 _ rfl).2.2.2.2.1⟩

/-- The plain section comes before the numbered one. -/
theorem preinit_plain_first :
    ∃ sorted, Qsorted compareLinkerArraySectionEntries (arraysLink.arrayEntries .preinit) sorted ∧
      ∃ group, linkerBuildArraySectionGroup 8 .preinit sorted = some group ∧
        (group.components.map fun id => (arraysLink.section? id).map ELFReaderSection.name) =
          [some (asciiName ".preinit_array"), some (asciiName ".preinit_array.5")] :=
  ⟨_, qsorted_arraysLink .preinit, _, rfl, by decide⟩

end DaveCC.Linking
