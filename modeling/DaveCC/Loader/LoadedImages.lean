import Mathlib.Data.List.Basic

/-!
# Loaded images

The executable and the dynamic libraries that a loader holds, as far as
`loader_lifecycle.c` reads them: their names, their dynamic sections, and where their
function arrays are. The table that a tag or a section names lies in the memory of the
guest.
-/

namespace DaveCC.Loading

/-- The identity of a `LoadedDynamicLibrary`. -/
abbrev ImageId := Nat

abbrev FileName := List Char

inductive ELFType where
  | none | rel | exec | dyn | core
  deriving DecidableEq

inductive SectionType where
  | nobits | initArray | finiArray | preinitArray | other (type : Nat)
  deriving DecidableEq

inductive DynamicTag where
  | needed | strtab | initArray | finiArray | initArraySz | finiArraySz | preinitArray
  | preinitArraySz | other (tag : Nat)
  deriving DecidableEq

inductive LifecyclePhase where
  | preinit | init | fini
  deriving DecidableEq

/-- An entry of a dynamic section before the one with the null tag. -/
structure DynamicEntry where
  tag : DynamicTag
  val : BitVec 64

structure ELFSectionHeader where
  type : SectionType
  addr : BitVec 64 := 0
  offset : BitVec 64 := 0
  size : BitVec 64 := 0
  entsize : BitVec 64 := 0

/-- A loadable segment. -/
structure ELFProgramHeader where
  vaddr : BitVec 64
  memsz : BitVec 64
  offset : BitVec 64

structure ELFHeader where
  type : ELFType
  isClass32 : Bool := false

/-- A mapped region that belongs to the image `owner`. -/
structure Region where
  address : BitVec 64
  segment : Option ELFProgramHeader
  owner : Option ImageId

structure LoadedDynamicLibrary where
  filename : FileName
  libname : FileName
  addr : BitVec 64 := 0
  loadAddress : BitVec 64 := 0
  header : Option ELFHeader
  loadSegments : List ELFProgramHeader := []
  sectionHeaders : Option (List ELFSectionHeader) := none
  dynamic : Option (List DynamicEntry) := none
  dynamicSectionRelocated : Bool := false

/-- `ELFReaderFile`, the file of the executable. -/
structure ELFReaderFile where
  header : Option ELFHeader
  sections : List ELFSectionHeader

/-- A loader after loading. The main image is one of the loaded libraries. -/
structure Loader where
  isStatic : Bool
  ignoreVaddr : Bool := false
  pageSize : BitVec 64 := 4096
  elfFile : Option ELFReaderFile := none
  regions : List Region := []
  library : ImageId → LoadedDynamicLibrary
  search : List ImageId
  dynamicLib : Option ImageId
  stringAt : BitVec 64 → FileName
  registered : ∀ main, dynamicLib = some main → main ∈ search

/-- What the guest can change: its memory, read at an address in a number of bytes, and
the number of errors that were reported. -/
structure Guest where
  memory : BitVec 64 → Nat → BitVec 64
  numErrors : Nat

def Guest.loaderError (guest : Guest) : Guest :=
  { guest with numErrors := guest.numErrors + 1 }

/-- A function array: its address, the number of its entries and their size. -/
structure FunctionArray where
  runtimeStart : BitVec 64
  entryCount : Nat
  entrySize : Nat

namespace Loader

variable (loader : Loader)

def segmentFileOffsetDelta (segment : ELFProgramHeader) : BitVec 64 :=
  segment.offset - (segment.offset &&& ~~~(loader.pageSize - 1))

def isType (type : ELFType) (lib : ImageId) : Bool :=
  (loader.library lib).header.any fun header => header.type == type

/-- `LoaderLinkedAddressToRuntime`. -/
def linkedAddressToRuntime (lib : Option ImageId) (linked : BitVec 64) : Option (BitVec 64) :=
  if !loader.ignoreVaddr then
    some (match lib with
      | some lib =>
        if loader.isType .dyn lib then (loader.library lib).loadAddress + linked else linked
      | none => linked)
  else
    loader.regions.findSome? fun region =>
      if lib.isSome && region.owner != lib then none
      else
        region.segment.bind fun segment =>
          if linked < segment.vaddr || segment.vaddr + segment.memsz ≤ linked then none
          else
            some (region.address + loader.segmentFileOffsetDelta segment + (linked - segment.vaddr))

/-- Where a value points in the file of an image when it lies in the segment. -/
def pointerInSegment (lib : LoadedDynamicLibrary) (value : BitVec 64)
    (segment : ELFProgramHeader) : Option (BitVec 64) :=
  if segment.vaddr ≤ value && value < segment.vaddr + segment.memsz then
    some (lib.addr + segment.offset + (value - segment.vaddr))
  else none

/-- Where a value points in the file of an image when it lies in the section. -/
def pointerInSection (lib : LoadedDynamicLibrary) (value : BitVec 64)
    (header : ELFSectionHeader) : Option (BitVec 64) :=
  if header.type == .nobits || header.size == 0 then none
  else if header.addr ≤ value && value < header.addr + header.size then
    some (lib.addr + header.offset + (value - header.addr))
  else none

/-- `ResolveDynamicTagPointer` of a section that has not been relocated. -/
def resolveDynamicTagPointer (lib : LoadedDynamicLibrary) (value : BitVec 64) : BitVec 64 :=
  let inSegment := lib.loadSegments.findSome? (pointerInSegment lib value)
  let inSection := (lib.sectionHeaders.getD []).findSome? (pointerInSection lib value)
  let mapped : Option (BitVec 64) :=
    match lib.header with
    | none => none
    | some header =>
      if lib.addr == 0 then none
      else if header.type == .dyn then inSegment <|> inSection
      else inSection
  mapped.getD (lib.loadAddress + value)

/-- The value of the first entry of a dynamic section with a tag. -/
def dynamicValue (lib : ImageId) (tag : DynamicTag) : Option (BitVec 64) :=
  (loader.library lib).dynamic.bind fun entries =>
    (entries.find? fun entry => entry.tag == tag).map DynamicEntry.val

/-- `DynamicLoaderFindDynamicSectionAddressEntry`, with the null pointer for an entry that
is absent. -/
def findDynamicSectionAddressEntry (lib : ImageId) (tag : DynamicTag) : BitVec 64 :=
  match loader.dynamicValue lib tag with
  | none => 0
  | some value =>
    if (loader.library lib).dynamicSectionRelocated then value
    else if loader.ignoreVaddr then (loader.linkedAddressToRuntime (some lib) value).getD 0
    else resolveDynamicTagPointer (loader.library lib) value

/-- `DynamicLoaderFindDynamicSectionOffsetEntry`. -/
def findDynamicSectionOffsetEntry (lib : ImageId) (tag : DynamicTag) : BitVec 64 :=
  (loader.dynamicValue lib tag).getD (-1)

/-! ## Function arrays -/

/-- `LoaderImageIsExecutable`. -/
def imageIsExecutable (lib : Option ImageId) : Bool :=
  match lib with
  | none => true
  | some lib => loader.dynamicLib == some lib || loader.isType .exec lib

/-- `LoaderImagePointerSize`. -/
def imagePointerSize (lib : Option ImageId) : Nat :=
  let header :=
    (lib.bind fun lib => (loader.library lib).header) <|> loader.elfFile.bind ELFReaderFile.header
  if header.any ELFHeader.isClass32 then 4 else 8

def phaseSectionType : LifecyclePhase → SectionType
  | .preinit => .preinitArray
  | .init => .initArray
  | .fini => .finiArray

def phaseDynamicTags : LifecyclePhase → DynamicTag × DynamicTag
  | .preinit => (.preinitArray, .preinitArraySz)
  | .init => (.initArray, .initArraySz)
  | .fini => (.finiArray, .finiArraySz)

def getFunctionArrayFromDynamicTags (lib : ImageId) (phase : LifecyclePhase) (guest : Guest) :
    Option FunctionArray × Guest :=
  let start := loader.findDynamicSectionAddressEntry lib (phaseDynamicTags phase).1
  let size := loader.findDynamicSectionOffsetEntry lib (phaseDynamicTags phase).2
  if start == 0 || size.toInt ≤ 0 then (none, guest)
  else
    let pointerSize := loader.imagePointerSize (some lib)
    if size.toNat % pointerSize != 0 then (none, guest.loaderError)
    else
      (some { runtimeStart := start, entryCount := size.toNat / pointerSize,
              entrySize := pointerSize }, guest)

/-- `GetFunctionArrayFromStaticSections` on the section headers of an image. -/
def getFunctionArrayFromSections (lib : Option ImageId) (sections : List ELFSectionHeader)
    (phase : LifecyclePhase) (guest : Guest) : Option FunctionArray × Guest :=
  match sections.filter fun header => header.type == phaseSectionType phase with
  | [] => (none, guest)
  | [found] =>
    let size := if found.entsize == 0 then loader.imagePointerSize lib else found.entsize.toNat
    if (size != 2 && size != 4 && size != 8) || found.size.toNat % size != 0 then
      (none, guest.loaderError)
    else
      match loader.linkedAddressToRuntime lib found.addr with
      | none => (none, guest.loaderError)
      | some runtime =>
        (some { runtimeStart := runtime, entryCount := found.size.toNat / size,
                entrySize := size }, guest)
  | _ => (none, guest.loaderError)

def getFunctionArrayFromStaticSections (lib : Option ImageId) (phase : LifecyclePhase)
    (guest : Guest) : Option FunctionArray × Guest :=
  match lib with
  | none =>
    match loader.elfFile with
    | none => (none, guest)
    | some file => loader.getFunctionArrayFromSections none file.sections phase guest
  | some id =>
    match (loader.library id).sectionHeaders, (loader.library id).header with
    | some sections, some _ => loader.getFunctionArrayFromSections lib sections phase guest
    | _, _ => (none, guest)

/-- The lookups of `LoaderGetImageFunctionArray`, each after the ones before it failed. -/
def firstArray (lookups : List (Guest → Option FunctionArray × Guest)) (guest : Guest) :
    Option FunctionArray × Guest :=
  match lookups with
  | [] => (none, guest)
  | lookup :: lookups =>
    match lookup guest with
    | (some array, guest) => (some array, guest)
    | (none, guest) => firstArray lookups guest

/-- `LoaderGetImageFunctionArray`. The image `none` is the main image when there is one. -/
def getImageFunctionArray (lib : Option ImageId) (phase : LifecyclePhase) (guest : Guest) :
    Option FunctionArray × Guest :=
  let lib := lib <|> loader.dynamicLib
  if phase == .preinit && !loader.imageIsExecutable lib then (none, guest)
  else
    match lib with
    | none => loader.getFunctionArrayFromStaticSections none phase guest
    | some id =>
      let own := loader.getFunctionArrayFromStaticSections (some id) phase
      let executable := loader.getFunctionArrayFromStaticSections none phase
      let tags := loader.getFunctionArrayFromDynamicTags id phase
      firstArray (if loader.imageIsExecutable (some id) then [tags, executable, own] else [tags, own])
        guest

/-- `LoaderReadFunctionArrayEntry`. -/
def readFunctionArrayEntry (guest : Guest) (array : FunctionArray) (index : Nat) :
    Option (BitVec 64) :=
  if array.runtimeStart == 0 ||
      (array.entrySize != 2 && array.entrySize != 4 && array.entrySize != 8) then none
  else
    some (guest.memory
      (array.runtimeStart + BitVec.ofNat 64 (index * array.entrySize)) array.entrySize)

/-- The name of a file after its last slash. -/
def leafName (filename : FileName) : FileName :=
  (filename.reverse.takeWhile (· != '/')).reverse

def findNeededLibrary (neededName : FileName) : Option ImageId :=
  loader.search.find? fun id =>
    let candidate := loader.library id
    leafName candidate.filename == neededName || candidate.libname == neededName ||
      candidate.filename == neededName

/-- `CollectNeededDependencies`. It fails when the string table or a library is missing. -/
def collectNeededDependencies (lib : ImageId) : Option (List ImageId) :=
  match (loader.library lib).dynamic with
  | none => some []
  | some entries =>
    let strtab := loader.findDynamicSectionAddressEntry lib .strtab
    if strtab == 0 then none
    else
      (entries.filter fun entry => entry.tag == .needed).mapM fun entry =>
        loader.findNeededLibrary (loader.stringAt (strtab + entry.val))

end Loader

end DaveCC.Loading
