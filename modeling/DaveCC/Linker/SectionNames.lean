import DaveCC.Linker.Objects

/-!
# Section names

What the linker tells from the name, the type and the flags of an input section: the sections
of initialization and termination functions, the output section it goes into, and the symbols
that stand for the bounds of an output section.
-/

namespace DaveCC.Linking

/-- The name that a string literal of the source spells. -/
def asciiName (text : String) : Name :=
  text.toList.map fun character => BitVec.ofNat 8 character.toNat

def shtProgbits : BitVec 32 := 1

def shtNobits : BitVec 32 := 8

def shtInitArray : BitVec 32 := 14

def shtFiniArray : BitVec 32 := 15

def shtPreinitArray : BitVec 32 := 16

def shtARMExidx : BitVec 32 := 0x70000001

def shtX86Unwind : BitVec 32 := 0x70000001

def shfAlloc : BitVec 64 := 0x2

def shfTls : BitVec 64 := 0x400

def shfGnuRetain : BitVec 64 := 0x200000

def ELFReaderSection.isAllocated (input : ELFReaderSection) : Bool :=
  input.flags &&& shfAlloc != 0

def machinePcode : Nat := 6500

def machineX86_64 : Nat := 62

def machineARM : Nat := 40

inductive LinkerArrayKind where
  | preinit | init | fini
  deriving DecidableEq

/-- `LinkerArrayCanonicalName`. -/
def LinkerArrayKind.canonicalName : LinkerArrayKind → Name
  | .preinit => asciiName ".preinit_array"
  | .init => asciiName ".init_array"
  | .fini => asciiName ".fini_array"

def linkerArrayDefaultPriority : Nat := 65535

def isSpace (character : BitVec 8) : Bool :=
  character == 0x20 || (0x09 ≤ character && character ≤ 0x0d)

def isDigit (character : BitVec 8) : Bool :=
  0x30 ≤ character && character ≤ 0x39

/-- `strtoul` in base 10, with what it leaves of the text. -/
def strtoul (text : Name) : BitVec 64 × Name :=
  let spaceless := text.dropWhile isSpace
  let (negative, unsigned) :=
    match spaceless with
    | 0x2d :: rest => (true, rest)
    | 0x2b :: rest => (false, rest)
    | _ => (false, spaceless)
  let digits := unsigned.takeWhile isDigit
  if digits = [] then (0, text)
  else
    let value := digits.foldl (fun value digit => 10 * value + (digit - 0x30).toNat) 0
    let result : BitVec 64 :=
      if 2 ^ 64 ≤ value then BitVec.allOnes 64
      else if negative then -BitVec.ofNat 64 value
      else BitVec.ofNat 64 value
    (result, unsigned.drop digits.length)

/-- `LinkerParseArrayPrioritySuffix`: the priority that a name has for its base. -/
def linkerParseArrayPrioritySuffix (name base : Name) (default : Nat) : Option Nat :=
  if name = base then some default
  else if !base.isPrefixOf name || (name.drop base.length).head? != some 0x2e then none
  else
    let suffix := name.drop (base.length + 1)
    if suffix = [] then none
    else
      let (value, rest) := strtoul suffix
      if rest = suffix ∨ rest ≠ [] ∨ 65535 < value then none else some value.toNat

/-- `LinkerClassifyArraySection`: the kind of an array section and its priority. -/
def linkerClassifyArraySection (input : ELFReaderSection) : Option (LinkerArrayKind × Nat) :=
  let priority (base : String) (default : Nat) : Nat :=
    (linkerParseArrayPrioritySuffix input.name (asciiName base) default).getD default
  if input.type = shtPreinitArray then some (.preinit, priority ".preinit_array" 0)
  else if input.type = shtInitArray then
    some (.init, priority ".init_array" linkerArrayDefaultPriority)
  else if input.type = shtFiniArray then
    some (.fini, priority ".fini_array" linkerArrayDefaultPriority)
  else if input.type = shtProgbits then
    match linkerParseArrayPrioritySuffix input.name (asciiName ".ctors")
        linkerArrayDefaultPriority with
    | some priority => some (.init, priority)
    | none =>
      (linkerParseArrayPrioritySuffix input.name (asciiName ".dtors")
        linkerArrayDefaultPriority).map (.fini, ·)
  else none

def canonicalSectionGroupName (name : Name) : Name :=
  let isPart (stem : String) : Bool :=
    stem.length < name.length && (asciiName stem).isPrefixOf name
  if isPart ".text." then asciiName ".text"
  else if isPart ".data." then asciiName ".data"
  else if isPart ".rodata." then asciiName ".rodata"
  else if isPart ".bss." then asciiName ".bss"
  else name

/-- The type by which `ReadELFContents` files a section. -/
def groupingType (machine : Nat) (input : ELFReaderSection) : BitVec 32 :=
  if machine = machineX86_64 ∧ input.type = shtX86Unwind ∧ input.name = asciiName ".eh_frame" then
    shtProgbits
  else input.type

/-- The name of the section group that an input section goes into, without what a linker script
places. -/
def sectionGroupName? (machine : Nat) (input : ELFReaderSection) : Option Name :=
  match linkerClassifyArraySection input with
  | some (kind, _) => some kind.canonicalName
  | none =>
    let type := groupingType machine input
    if type = shtProgbits ∧ input.isAllocated ∨ machine = machineARM ∧ type = shtARMExidx ∨
        type = shtNobits ∧ input.flags &&& shfTls ≠ 0 then
      some (canonicalSectionGroupName input.name)
    else none

/-! ## Bounds -/

/-- The symbols at the start and the end of a section group, with its name. -/
def boundsOf (group start stop : String) : List (Name × Name) :=
  [(asciiName start, asciiName group), (asciiName stop, asciiName group)]

/-- `InventExceptionTableBounds`. -/
def exceptionTableBounds : List (Name × Name) :=
  boundsOf ".davecc_except_table" "__davecc_except_table_start" "__davecc_except_table_end"

/-- The symbols that `InventEHFrameBounds`, `InventGccExceptTableBounds`,
`InventExceptionTableBounds`, `InventARMExidxBounds` and `LinkerInventArrayBoundsSymbols` define,
each with the name of the section group that it bounds. -/
def boundSymbols (machine : Nat) (buildingDso : Bool) : List (Name × Name) :=
  boundsOf ".eh_frame" "__eh_frame_start" "__eh_frame_end" ++
    boundsOf ".gcc_except_table" "__gcc_except_table_start" "__gcc_except_table_end" ++
    (if machine = machinePcode then exceptionTableBounds else []) ++
    (if machine = machineARM then
      boundsOf ".ARM.exidx" "__exidx_start" "__exidx_end" ++
        boundsOf ".ARM.extab" "__extab_start" "__extab_end"
    else []) ++
    boundsOf ".preinit_array" "__preinit_array_start" "__preinit_array_end" ++
    boundsOf ".init_array" "__init_array_start" "__init_array_end" ++
    boundsOf ".fini_array" "__fini_array_start" "__fini_array_end" ++
    (if buildingDso then
      boundsOf ".init_array" "__davecc_dso_init_array_start" "__davecc_dso_init_array_end" ++
        boundsOf ".fini_array" "__davecc_dso_fini_array_start" "__davecc_dso_fini_array_end"
    else [])

def sectionIsGCRoot (name : Name) (flags : BitVec 64) : Bool :=
  let equals (exact : String) : Bool := name == asciiName exact
  let hasPrefix (stem : String) : Bool := (asciiName stem).isPrefixOf name
  if flags &&& shfGnuRetain != 0 then true
  else
    equals ".init" || equals ".fini" || equals ".ctors" || equals ".dtors" || equals ".jcr" ||
      equals ".boot" || equals ".hwvectors" || equals ".preinit_array" || equals ".init_array" ||
      equals ".fini_array" || hasPrefix ".eh_frame" || hasPrefix ".gcc_except_table" ||
      hasPrefix ".ARM.exidx" || hasPrefix ".ARM.extab" || hasPrefix ".init_array." ||
      hasPrefix ".preinit_array." || hasPrefix ".fini_array." || hasPrefix ".ctors." ||
      hasPrefix ".dtors."

local instance : LawfulBEq Name := inferInstance

/-- A group whose name none of the four canonical names hides. -/
def isOwnGroup (group : Name) : Bool :=
  group ∉ [asciiName ".text", asciiName ".data", asciiName ".rodata", asciiName ".bss"]

theorem eq_of_canonicalSectionGroupName {name group : Name} (own : isOwnGroup group = true)
    (isGroup : canonicalSectionGroupName name = group) : name = group := by
  rw [canonicalSectionGroupName] at isGroup
  have ownGroup : group ∉ [asciiName ".text", asciiName ".data", asciiName ".rodata",
      asciiName ".bss"] := of_decide_eq_true own
  simp only [List.mem_cons, List.not_mem_nil, or_false, not_or] at ownGroup
  split at isGroup
  · exact absurd isGroup.symm ownGroup.1
  split at isGroup
  · exact absurd isGroup.symm ownGroup.2.1
  split at isGroup
  · exact absurd isGroup.symm ownGroup.2.2.1
  split at isGroup
  · exact absurd isGroup.symm ownGroup.2.2.2
  · exact isGroup

theorem sectionIsGCRoot_of_name {name : Name} (isRoot : sectionIsGCRoot name 0 = true)
    (flags : BitVec 64) : sectionIsGCRoot name flags = true := by
  rw [sectionIsGCRoot]
  split
  · rfl
  · rw [sectionIsGCRoot] at isRoot
    exact isRoot

/-- Of the groups that have bounds, only the exception table of p-code has a name that does not
make its sections roots. -/
theorem boundSymbols_cases {machine : Nat} {buildingDso : Bool} {bound : Name × Name}
    (isBound : bound ∈ boundSymbols machine buildingDso) :
    machine = machinePcode ∧ bound ∈ exceptionTableBounds ∨
      isOwnGroup bound.2 = true ∧ sectionIsGCRoot bound.2 0 = true := by
  have ofBounds {group start stop : String} (own : isOwnGroup (asciiName group) = true)
      (root : sectionIsGCRoot (asciiName group) 0 = true)
      (isIn : bound ∈ boundsOf group start stop) :
      isOwnGroup bound.2 = true ∧ sectionIsGCRoot bound.2 0 = true := by
    simp only [boundsOf, List.mem_cons, List.not_mem_nil, or_false] at isIn
    cases isIn with
    | inl isStart =>
      rw [isStart]
      exact ⟨own, root⟩
    | inr isStop =>
      rw [isStop]
      exact ⟨own, root⟩
  simp only [boundSymbols, List.mem_append] at isBound
  rcases isBound with ((((((frame | table) | exception) | arm) | preinit) | init) | fini) | dso
  · exact .inr (ofBounds (by decide) (by decide) frame)
  · exact .inr (ofBounds (by decide) (by decide) table)
  · split at exception
    · next isPcode => exact .inl ⟨isPcode, exception⟩
    · exact absurd exception List.not_mem_nil
  · split at arm
    · cases List.mem_append.mp arm with
      | inl exidx => exact .inr (ofBounds (by decide) (by decide) exidx)
      | inr extab => exact .inr (ofBounds (by decide) (by decide) extab)
    · exact absurd arm List.not_mem_nil
  · exact .inr (ofBounds (by decide) (by decide) preinit)
  · exact .inr (ofBounds (by decide) (by decide) init)
  · exact .inr (ofBounds (by decide) (by decide) fini)
  · split at dso
    · cases List.mem_append.mp dso with
      | inl init => exact .inr (ofBounds (by decide) (by decide) init)
      | inr fini => exact .inr (ofBounds (by decide) (by decide) fini)
    · exact absurd dso List.not_mem_nil

end DaveCC.Linking
