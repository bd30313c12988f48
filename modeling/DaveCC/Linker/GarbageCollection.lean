import DaveCC.Container.Worklist
import DaveCC.Linker.SectionNames

/-!
# Collecting unused sections

`linker_gc.c`: sections are discarded, the roots are marked live, and what relocations refer to
from live sections is marked in turn.
-/

namespace DaveCC.Linking

open DaveCC.Container

/-- What a link is asked for. -/
structure LinkerOptions where
  machine : Nat
  relocatable : Bool
  gcSections : Bool
  buildingDso : Bool
  entrySymbol : Name

namespace Linker

def section? (id : SectionId) (linker : Linker) : Option ELFReaderSection :=
  (linker.file id.file).sections[id.index]?

def updateSection (id : SectionId) (change : ELFReaderSection → ELFReaderSection)
    (linker : Linker) : Linker :=
  linker.updateFile id.file fun file => { file with sections := file.sections.modify id.index change }

/-- The sections of all files, in the order of the linker's loops. -/
def sectionIds (linker : Linker) : List SectionId :=
  (List.range linker.files.length).flatMap fun file =>
    (List.range (linker.file file).sections.length).map (SectionId.mk file)

def objectFileFindSymbol (file : FileId) (name : Name) (linker : Linker) : Option LinkerSymbol :=
  ((linker.file file).localSymbolTable.find name).or (linker.globalSymbolTable.find name)

end Linker

def sttSection : BitVec 8 := 3

/-- `LinkerReadRelocation`, for the section that the relocation section names. -/
def linkerReadRelocation (file : FileId) (targetSectionIndex : Nat) (strtab : StringTable)
    (elfSym : ELFSymbol) (linker : Linker) : Linker :=
  let sections := (linker.file file).sections.length
  if sections ≤ targetSectionIndex then linker
  else
    let reloc : Relocation :=
      { symbolName := strtab.nameOf elfSym
        symbol := none
        symbolSection :=
          if elfSym.info &&& 0xf = sttSection ∧ elfSym.shndx.toNat < sections then
            some ⟨file, elfSym.shndx.toNat⟩
          else none
        patched := some ⟨file, targetSectionIndex⟩ }
    linker.updateFile file fun object => { object with relocations := object.relocations ++ [reloc] }

/-- The section of the symbol that `ApplyRelocation` uses. -/
def Linker.appliedSection (file : FileId) (reloc : Relocation) (linker : Linker) :
    Option SectionId :=
  match reloc.symbolSection with
  | some target => some target
  | none => (linker.objectFileFindSymbol file reloc.symbolName).bind LinkerSymbol.definingSection

def relocationTargetSection (file : FileId) (reloc : Relocation) (linker : Linker) :
    Option SectionId :=
  match reloc.symbolSection with
  | some target => some target
  | none =>
    match reloc.symbol.bind LinkerSymbol.definingSection with
    | some target => some target
    | none =>
      if reloc.symbolName = [] then none
      else (linker.objectFileFindSymbol file reloc.symbolName).bind LinkerSymbol.definingSection

/-- The edge of a relocation. -/
def Linker.edge? (file : FileId) (reloc : Relocation) (linker : Linker) :
    Option (SectionId × SectionId) :=
  match reloc.patched with
  | none => none
  | some source => (relocationTargetSection file reloc linker).map (source, ·)

def buildSectionRelocGraph (linker : Linker) : Linker :=
  (List.range linker.files.length).foldl (fun graph file =>
    (linker.file file).relocations.foldl (fun graph reloc =>
      match linker.edge? file reloc with
      | none => graph
      | some (source, target) =>
        graph.updateSection source fun input => { input with gcRefs := input.gcRefs ++ [target] })
      graph) linker

/-- A link whose sections are being marked. -/
structure Marking where
  linker : Linker
  worklist : List SectionId

def markSectionLive (id : SectionId) (marking : Marking) : Marking :=
  match marking.linker.section? id with
  | none => marking
  | some input =>
    if !input.discarded then marking
    else
      let linker := marking.linker.updateSection id fun input => { input with discarded := false }
      if !input.isAllocated then { marking with linker := linker }
      else ⟨linker, marking.worklist ++ [id]⟩

/-- The body of the loop that discards the sections and marks those that are roots by themselves. -/
def discardSection (id : SectionId) (marking : Marking) : Marking :=
  match marking.linker.section? id with
  | none => marking
  | some input =>
    if !input.isAllocated then marking
    else
      let marking :=
        { marking with
          linker := marking.linker.updateSection id fun input => { input with discarded := true } }
      if sectionIsGCRoot input.name input.flags then markSectionLive id marking else marking

def markDefinedSymbolSection (bucket : List LinkerSymbol) (marking : Marking) : Marking :=
  bucket.foldl (fun marking symbol =>
    match symbol.definingSection with
    | some id => if symbol.defined then markSectionLive id marking else marking
    | none => marking) marking

def Linker.entrySection (options : LinkerOptions) (linker : Linker) : Option SectionId :=
  (linker.globalSymbolTable.find options.entrySymbol).bind LinkerSymbol.definingSection

def markEntry (options : LinkerOptions) (marking : Marking) : Marking :=
  match marking.linker.entrySection options with
  | some id => markSectionLive id marking
  | none => marking

def markExported (options : LinkerOptions) (marking : Marking) : Marking :=
  if options.buildingDso then
    marking.linker.globalSymbolTable.entries.foldl
      (fun marking bucket => markDefinedSymbolSection bucket marking) marking
  else marking

/-- The loop over the worklist. -/
def drainWorklist : Nat → Marking → Marking
  | 0, marking => marking
  | fuel + 1, marking =>
    match marking.worklist.getLast? with
    | none => marking
    | some id =>
      let references := (marking.linker.section? id).elim [] ELFReaderSection.gcRefs
      drainWorklist fuel
        (references.foldl (fun marking id => markSectionLive id marking)
          { marking with worklist := marking.worklist.dropLast })

def markRoots (options : LinkerOptions) (linker : Linker) : Marking :=
  let marking :=
    linker.sectionIds.foldl (fun marking id => discardSection id marking) ⟨linker, []⟩
  markExported options (markEntry options marking)

def linkerGarbageCollectSections (options : LinkerOptions) (linker : Linker) : Linker :=
  if !options.gcSections then linker
  else
    let marking := markRoots options (buildSectionRelocGraph linker)
    (drainWorklist (linker.sectionIds.length + marking.worklist.length) marking).linker

end DaveCC.Linking
