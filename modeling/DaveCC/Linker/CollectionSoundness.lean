import DaveCC.Linker.Collection
import DaveCC.Linker.SymbolResolution

/-!
# Soundness of the collection

A section is kept by a root, by relocations, or by the symbols that stand for the bounds of its
table. The collection retains every section that is kept exactly when the array sections and the
exception table of p-code are reached by relocations alone.
-/

namespace DaveCC.Linking

open DaveCC.Container Linker

/-- An object file while it is read. -/
structure ObjectFile.Fresh (object : ObjectFile) : Prop where
  sections : ∀ input ∈ object.sections, input.discarded = false ∧ input.gcRefs = []
  relocations : ∀ reloc ∈ object.relocations, reloc.symbol = none
  entries : object.localSymbolTable.entries ≠ []
  unnamed : object.localSymbolTable.find [] = none

/-- A link after its files are read. -/
structure Linker.Loaded (linker : Linker) : Prop where
  files : ∀ object ∈ linker.files, object.Fresh
  entries : linker.globalSymbolTable.entries ≠ []
  unnamed : linker.globalSymbolTable.find [] = none

/-- The links that come of reading symbols and relocations of files. -/
inductive Linker.Reads : Linker → Prop where
  | init : Linker.init.Reads
  | file {linker : Linker} (reads : linker.Reads) (sections : List ELFReaderSection)
      (fresh : ∀ input ∈ sections, input.discarded = false ∧ input.gcRefs = []) :
      Linker.Reads
        { linker with files := linker.files ++ [{ ObjectFile.empty with sections := sections }] }
  | symbol {linker : Linker} (reads : linker.Reads) (file : FileId) (strtab : StringTable)
      (elfSym : ELFSymbol) : (linkerReadSymbol file strtab elfSym linker).Reads
  | relocation {linker : Linker} (reads : linker.Reads) (file : FileId) (targetSectionIndex : Nat)
      (strtab : StringTable) (elfSym : ELFSymbol) :
      (linkerReadRelocation file targetSectionIndex strtab elfSym linker).Reads

section Loaded

variable {linker : Linker} {file : FileId}

theorem ObjectFile.Fresh.empty : ObjectFile.empty.Fresh where
  sections _ isIn := absurd isIn List.not_mem_nil
  relocations _ isIn := absurd isIn List.not_mem_nil
  entries := List.cons_ne_nil _ _
  unnamed := HashTable.search_init

theorem Linker.Loaded.freshFile (loaded : linker.Loaded) (file : FileId) :
    (linker.file file).Fresh := by
  rw [Linker.file, List.getD_eq_getElem?_getD]
  cases found : linker.files[file]? with
  | none => exact .empty
  | some object => exact loaded.files object (List.mem_of_getElem? found)

theorem Linker.Loaded.updateFile {edit : ObjectFile → ObjectFile} (loaded : linker.Loaded)
    (keeps : (linker.file file).Fresh → (edit (linker.file file)).Fresh) :
    (linker.updateFile file edit).Loaded := by
  refine ⟨?_, loaded.entries, loaded.unnamed⟩
  intro object isIn
  have ⟨index, isObject⟩ := List.mem_iff_getElem?.mp isIn
  have sameFile : (linker.updateFile file edit).file index = object := by
    rw [Linker.file, List.getD_eq_getElem?_getD, isObject]
    rfl
  rw [← sameFile, file_updateFile]
  split
  · next same =>
      rw [← same.1]
      exact keeps (loaded.freshFile file)
  · exact loaded.freshFile index

theorem ObjectFile.Fresh.assignCommon {object : ObjectFile} (fresh : object.Fresh)
    (elfSym : ELFSymbol) (common : CommonSymbol) :
    (Linking.assignCommon elfSym common object).Fresh := by
  rw [Linking.assignCommon]
  split
  · exact ⟨fresh.sections, fresh.relocations, fresh.entries, fresh.unnamed⟩
  · exact fresh

variable {table : SymbolTable} {symbol : LinkerSymbol}

theorem find_nil_insertSymbol (entries : table.entries ≠ []) (unnamed : table.find [] = none)
    (named : symbol.name ≠ []) : (table.insertSymbol symbol).find [] = none := by
  have inserted : (table.insertSymbol symbol).find [] =
      (table.find []).or (if symbol.name = [] then some symbol else none) :=
    HashTable.search_insert entries
  rw [inserted, unnamed, if_neg named]
  rfl

theorem entries_insertSymbol (entries : table.entries ≠ []) :
    (table.insertSymbol symbol).entries ≠ [] :=
  fun empty => entries (List.modify_eq_nil_iff.mp empty)

variable {name : Name}

theorem Linker.Loaded.readLocalSymbol (loaded : linker.Loaded) (named : name ≠ [])
    (elfSym : ELFSymbol) : (Linking.readLocalSymbol name file elfSym linker).Loaded := by
  apply loaded.updateFile
  intro fresh
  have assigned := fresh.assignCommon elfSym (.local elfSym name)
  exact ⟨assigned.sections, assigned.relocations, entries_insertSymbol assigned.entries,
    find_nil_insertSymbol assigned.entries assigned.unnamed named⟩

theorem Linker.Loaded.update (loaded : linker.Loaded) {change : LinkerSymbol → LinkerSymbol}
    (named : name ≠ []) (keeps : ∀ symbol, symbol.name = name → (change symbol).name = name) :
    { linker with globalSymbolTable := linker.globalSymbolTable.update name change }.Loaded := by
  refine ⟨loaded.files, fun empty => loaded.entries (List.modify_eq_nil_iff.mp empty), ?_⟩
  have lookup : (linker.globalSymbolTable.update name change).find [] =
      if [] = name then (linker.globalSymbolTable.find []).map change
      else linker.globalSymbolTable.find [] :=
    find_update loaded.entries keeps
  rw [if_neg named.symm] at lookup
  exact lookup.trans loaded.unnamed

theorem Linker.Loaded.redefineSymbol (loaded : linker.Loaded) (named : symbol.name ≠ [])
    (elfSym : ELFSymbol) : (Linking.redefineSymbol symbol file elfSym linker).Loaded := by
  rw [Linking.redefineSymbol]
  cases redefines : redefinition symbol file elfSym with
  | keep => exact loaded
  | change changed => exact loaded.update named fun _ _ => name_of_change redefines
  | define =>
    have defined : { linker with
        globalSymbolTable := linker.globalSymbolTable.update symbol.name
          fun _ => symbol.define file elfSym }.Loaded := loaded.update named fun _ _ => rfl
    exact defined.updateFile fun fresh => fresh.assignCommon elfSym (.global symbol.name)
  | multiple => exact ⟨loaded.files, loaded.entries, loaded.unnamed⟩

theorem Linker.Loaded.readSymbol (loaded : linker.Loaded) (strtab : StringTable)
    (elfSym : ELFSymbol) : (linkerReadSymbol file strtab elfSym linker).Loaded := by
  rw [linkerReadSymbol]
  dsimp only
  split
  · exact ⟨loaded.files, loaded.entries, loaded.unnamed⟩
  split
  · exact loaded
  next named =>
  split
  · exact loaded.readLocalSymbol named elfSym
  cases found : linker.globalSymbolTable.find (strtab.nameOf elfSym) with
  | some symbol =>
    apply loaded.redefineSymbol
    rw [name_of_find found]
    exact named
  | none =>
    apply Linker.Loaded.updateFile
    · exact ⟨loaded.files, entries_insertSymbol loaded.entries,
        find_nil_insertSymbol loaded.entries loaded.unnamed named⟩
    · exact fun fresh => fresh.assignCommon elfSym (.global (strtab.nameOf elfSym))

theorem Linker.Loaded.readRelocation (loaded : linker.Loaded) (targetSectionIndex : Nat)
    (strtab : StringTable) (elfSym : ELFSymbol) :
    (linkerReadRelocation file targetSectionIndex strtab elfSym linker).Loaded := by
  rw [linkerReadRelocation]
  split
  · exact loaded
  apply loaded.updateFile
  intro fresh
  refine ⟨fresh.sections, ?_, fresh.entries, fresh.unnamed⟩
  intro reloc isReloc
  cases List.mem_append.mp isReloc with
  | inl before => exact fresh.relocations reloc before
  | inr last =>
    rw [List.mem_singleton.mp last]

/-- Whatever is read, the link is as it is read. -/
theorem Linker.Reads.loaded (reads : linker.Reads) : linker.Loaded := by
  induction reads with
  | init => exact ⟨nofun, List.cons_ne_nil _ _, HashTable.search_init⟩
  | file _ sections fresh ih =>
    refine ⟨?_, ih.entries, ih.unnamed⟩
    intro object isIn
    cases List.mem_append.mp isIn with
    | inl before => exact ih.files object before
    | inr last =>
      rw [List.mem_singleton.mp last]
      have empty := ObjectFile.Fresh.empty
      exact ⟨fresh, empty.relocations, empty.entries, empty.unnamed⟩
  | symbol _ file strtab elfSym ih => exact ih.readSymbol strtab elfSym
  | relocation _ file targetSectionIndex strtab elfSym ih =>
    exact ih.readRelocation targetSectionIndex strtab elfSym

theorem Linker.Loaded.fresh (loaded : linker.Loaded) : linker.Fresh := by
  constructor
  · intro id isDiscarded
    have ⟨input, found, discarded⟩ := isDiscarded
    have fresh := ((loaded.freshFile id.file).sections input (List.mem_of_getElem? found)).1
    exact Bool.false_ne_true (fresh.symm.trans discarded)
  · intro id input found
    exact ((loaded.freshFile id.file).sections input (List.mem_of_getElem? found)).2

theorem Linker.Loaded.objectFileFindSymbol (loaded : linker.Loaded) :
    linker.objectFileFindSymbol file [] = none := by
  rw [Linker.objectFileFindSymbol, (loaded.freshFile file).unnamed, loaded.unnamed]
  rfl

end Loaded

/-- A relocation in one section is against a symbol in another. -/
def Linker.RefersTo (linker : Linker) (source target : SectionId) : Prop :=
  ∃ file, ∃ reloc ∈ (linker.file file).relocations, reloc.patched = some source ∧
    linker.appliedSection file reloc = some target

/-- What relocations reach from the roots of the collection. -/
def Linker.Live (options : LinkerOptions) (linker : Linker) : SectionId → Prop :=
  Worklist.Reaches linker.Allocated (linker.codeRoots options) linker.RefersTo

section Result

variable {options : LinkerOptions} {linker : Linker} {id source target : SectionId}

theorem Linker.Loaded.mem_edges_iff (loaded : linker.Loaded) :
    (source, target) ∈ linker.edges ↔ linker.RefersTo source target := by
  have sameTarget {file : FileId} {reloc : Relocation}
      (isReloc : reloc ∈ (linker.file file).relocations) :
      relocationTargetSection file reloc linker = linker.appliedSection file reloc := by
    rw [relocationTargetSection, Linker.appliedSection, (loaded.freshFile file).relocations reloc isReloc]
    cases reloc.symbolSection with
    | some target => rfl
    | none =>
      rw [Option.bind_none]
      dsimp only
      split
      · next unnamed =>
          rw [unnamed, loaded.objectFileFindSymbol]
          rfl
      · rfl
  rw [Linking.mem_edges_iff]
  constructor
  · rintro ⟨file, reloc, isReloc, patched, isTarget⟩
    exact ⟨file, reloc, isReloc, patched, (sameTarget isReloc).symm.trans isTarget⟩
  · rintro ⟨file, reloc, isReloc, patched, isTarget⟩
    exact ⟨file, reloc, isReloc, patched, (sameTarget isReloc).trans isTarget⟩

variable {input : ELFReaderSection}

/-- The graph is the link but for its edges. -/
theorem graph_section? (found : linker.section? id = some input) :
    (buildSectionRelocGraph linker).section? id =
      some { input with gcRefs := input.gcRefs ++ targetsOf id linker.edges } := by
  rw [section?_graph, found, Option.map_some]

theorem exists_of_graph_section?
    (found : (buildSectionRelocGraph linker).section? id = some input) :
    ∃ input', linker.section? id = some input' ∧ input'.name = input.name ∧
      input'.flags = input.flags ∧ input'.discarded = input.discarded := by
  rw [section?_graph] at found
  have ⟨input', found', same⟩ := Option.map_eq_some_iff.mp found
  exact ⟨input', found', same ▸ rfl, same ▸ rfl, same ▸ rfl⟩

theorem allocated_graph : (buildSectionRelocGraph linker).Allocated = linker.Allocated := by
  ext id
  constructor
  · intro ⟨input, found, allocated⟩
    have ⟨input', found', _, flags, _⟩ := exists_of_graph_section? found
    refine ⟨input', found', ?_⟩
    rw [ELFReaderSection.isAllocated, flags]
    exact allocated
  · intro ⟨input, found, allocated⟩
    exact ⟨_, graph_section? found, allocated⟩

theorem discarded_graph : (buildSectionRelocGraph linker).Discarded = linker.Discarded := by
  ext id
  constructor
  · intro ⟨input, found, discarded⟩
    have ⟨input', found', _, _, same⟩ := exists_of_graph_section? found
    exact ⟨input', found', same.trans discarded⟩
  · intro ⟨input, found, discarded⟩
    exact ⟨_, graph_section? found, discarded⟩

theorem codeRoots_graph :
    (buildSectionRelocGraph linker).codeRoots options = linker.codeRoots options := by
  have sameNamed (id : SectionId) :
      (buildSectionRelocGraph linker).RootNamed id ↔ linker.RootNamed id := by
    constructor
    · intro ⟨input, found, isRoot⟩
      have ⟨input', found', name, flags, _⟩ := exists_of_graph_section? found
      refine ⟨input', found', ?_⟩
      rw [name, flags]
      exact isRoot
    · intro ⟨input, found, isRoot⟩
      exact ⟨_, graph_section? found, isRoot⟩
  ext id
  rw [codeRoots, codeRoots, Set.mem_ofPred_eq, Set.mem_ofPred_eq, sameNamed, entrySection,
    entrySection, exportedSections, exportedSections, sameLinks_graph.globals]

/-- The edges of a section are its relocations. -/
theorem Linker.Loaded.mem_references_iff (loaded : linker.Loaded) (allocated : source ∈ linker.Allocated) :
    target ∈ (buildSectionRelocGraph linker).references source ↔ linker.RefersTo source target := by
  have ⟨input, found, _⟩ := allocated
  rw [references, graph_section? found, Option.elim_some, loaded.fresh.unreferenced source
    input found, List.nil_append, mem_targetsOf, loaded.mem_edges_iff]

theorem card_le_of_allocated {unmarked : Finset SectionId}
    (allocated : ∀ id ∈ unmarked, id ∈ linker.Allocated) :
    unmarked.card ≤ linker.sectionIds.length := by
  have subset : unmarked ⊆ linker.sectionIds.toFinset := by
    intro id isIn
    have ⟨input, found, _⟩ := allocated id isIn
    exact List.mem_toFinset.mpr (mem_sectionIds_of_section? found)
  exact (Finset.card_le_card subset).trans (List.toFinset_card_le _)

/-- What the collection leaves of a link. -/
theorem Linker.Loaded.collected (loaded : linker.Loaded) (enabled : options.gcSections = true) :
    SameLinks (linkerGarbageCollectSections options linker) linker ∧
      ∀ id, id ∈ (linkerGarbageCollectSections options linker).Discarded ↔
        id ∈ linker.Allocated ∧ ¬linker.Live options id := by
  obtain ⟨work, rooted⟩ := rooted_markRoots options (buildSectionRelocGraph linker)
    (by rw [discarded_graph]; exact loaded.fresh.retained)
  rw [linkerGarbageCollectSections, enabled, Bool.not_true, if_neg Bool.false_ne_true]
  have drained := rooted.reflects.drain (linker.sectionIds.length +
    (markRoots options (buildSectionRelocGraph linker)).worklist.length)
  refine ⟨drained.links.trans sameLinks_graph, ?_⟩
  intro id
  have nodes := rooted.marks.unmarked
  rw [allocated_graph] at nodes
  have enough : work.size ≤ linker.sectionIds.length +
      (markRoots options (buildSectionRelocGraph linker)).worklist.length := by
    rw [Worklist.size, rooted.reflects.pending]
    exact Nat.add_le_add_right (card_le_of_allocated nodes) _
  have reachesIff : Worklist.Reaches (buildSectionRelocGraph linker).Allocated
      ((buildSectionRelocGraph linker).codeRoots options)
      (fun source target => target ∈ (buildSectionRelocGraph linker).references source) id ↔
      linker.Live options id := by
    rw [allocated_graph, codeRoots_graph]
    constructor
    · intro reaches
      exact reaches.mono (fun _ isRoot => isRoot)
        fun source allocated target isEdge => (loaded.mem_references_iff allocated).mp isEdge
    · intro live
      exact Worklist.Reaches.mono live (fun _ isRoot => isRoot)
        fun source allocated target refers => (loaded.mem_references_iff allocated).mpr refers
  rw [← drained.discarded, ← allocated_graph]
  constructor
  · intro unmarked
    have allocated := drained.allocated id unmarked
    refine ⟨allocated, fun live => ?_⟩
    exact (Worklist.mem_unmarked_drain_iff rooted.marks rooted.rooted _ enough allocated).mp unmarked
      (reachesIff.mpr live)
  · rintro ⟨allocated, notLive⟩
    apply (Worklist.mem_unmarked_drain_iff rooted.marks rooted.rooted _ enough allocated).mpr
    exact fun reaches => notLive (reachesIff.mp reaches)

theorem Linker.Live.of_rootNamed (found : linker.section? id = some input)
    (allocated : input.isAllocated = true)
    (isRoot : sectionIsGCRoot input.name input.flags = true) : linker.Live options id :=
  .root ⟨input, found, allocated⟩ (.inl ⟨input, found, isRoot⟩)

end Result

/-! ## What is kept -/

/-- A relocation in one section is against a symbol at the bounds of another's group. -/
def Linker.RefersToBound (machine : Nat) (bounds : List (Name × Name)) (linker : Linker)
    (source target : SectionId) : Prop :=
  ∃ file, ∃ reloc ∈ (linker.file file).relocations, reloc.patched = some source ∧
    reloc.symbolSection = none ∧
    (linker.file file).localSymbolTable.find reloc.symbolName = none ∧
    ∃ group, (reloc.symbolName, group) ∈ bounds ∧
      ∃ input, linker.section? target = some input ∧ sectionGroupName? machine input = some group

/-- An array of initialization or termination functions. -/
def Linker.IsArray (linker : Linker) (id : SectionId) : Prop :=
  ∃ input, linker.section? id = some input ∧ (linkerClassifyArraySection input).isSome = true

/-- The sections that are kept for their own sake. -/
def Linker.keptRoots (options : LinkerOptions) (linker : Linker) : Set SectionId :=
  { id | id ∈ linker.codeRoots options ∨ linker.IsArray id }

/-- One section keeps another by a relocation. -/
def Linker.KeepsAlive (options : LinkerOptions) (linker : Linker) (source target : SectionId) : Prop :=
  linker.RefersTo source target ∨
    options.relocatable = false ∧
      linker.RefersToBound options.machine (boundSymbols options.machine options.buildingDso) source
        target

/-- What is kept by a chain of relocations from a root. -/
def Linker.Kept (options : LinkerOptions) (linker : Linker) : SectionId → Prop :=
  Worklist.Reaches linker.Allocated (linker.keptRoots options) (linker.KeepsAlive options)

/-- The rules of a collection, from what a link was to what it is afterwards. -/
structure CollectionSound (options : LinkerOptions) (linker after : Linker) : Prop where
  unallocated : ∀ id, id ∉ linker.Allocated → id ∉ after.Discarded
  retained : ∀ id ∈ linker.Allocated, linker.Kept options id → id ∉ after.Discarded
  consistent : ∀ source ∈ linker.Allocated, source ∉ after.Discarded →
    ∀ target, after.RefersTo source target → target ∉ after.Discarded
  collected : ∀ id ∈ linker.Allocated, ¬linker.Kept options id → id ∈ after.Discarded

/-- The sections that the collector knows no root or edge for are live without one. -/
structure TablesLive (options : LinkerOptions) (linker : Linker) : Prop where
  arrays : ∀ id ∈ linker.Allocated, linker.IsArray id → linker.Live options id
  exceptionTable : options.machine = machinePcode → options.relocatable = false →
    ∀ source, linker.Live options source → ∀ target ∈ linker.Allocated,
      linker.RefersToBound machinePcode exceptionTableBounds source target →
        linker.Live options target

section Soundness

variable {options : LinkerOptions} {linker after : Linker} {id source target : SectionId}

theorem Linker.Live.kept (live : linker.Live options id) : linker.Kept options id :=
  Worklist.Reaches.mono live (fun _ isRoot => .inl isRoot) fun _ _ _ refers => .inl refers

theorem TablesLive.live_of_bound (tables : TablesLive options linker)
    (relocatable : options.relocatable = false) (live : linker.Live options source)
    (allocated : target ∈ linker.Allocated)
    (refers : linker.RefersToBound options.machine (boundSymbols options.machine
      options.buildingDso) source target) :
    linker.Live options target := by
  have ⟨file, reloc, isReloc, patched, named, notLocal, group, isBound, input, found, isGroup⟩ := refers
  cases boundSymbols_cases isBound with
  | inl exception =>
    have ⟨isPcode, isException⟩ := exception
    rw [isPcode] at isGroup
    exact tables.exceptionTable isPcode relocatable source live target allocated
      ⟨file, reloc, isReloc, patched, named, notLocal, group, isException, input, found, isGroup⟩
  | inr root =>
    have ⟨own, isRoot⟩ := root
    cases classified : linkerClassifyArraySection input with
    | some kind =>
      exact tables.arrays target allocated ⟨input, found, classified ▸ rfl⟩
    | none =>
      simp only [sectionGroupName?, classified] at isGroup
      split at isGroup
      · have sameName : input.name = group :=
          eq_of_canonicalSectionGroupName own (Option.some.inj isGroup)
        have ⟨_, isInput, isAllocated⟩ := allocated
        cases found.symm.trans isInput
        apply Linker.Live.of_rootNamed found isAllocated
        rw [sameName]
        exact sectionIsGCRoot_of_name isRoot input.flags
      · cases isGroup

theorem TablesLive.live_of_kept (tables : TablesLive options linker)
    (kept : linker.Kept options id) : linker.Live options id := by
  induction kept with
  | root allocated isRoot =>
    cases isRoot with
    | inl isRoot => exact .root allocated isRoot
    | inr isArray => exact tables.arrays _ allocated isArray
  | edge _ allocated keeps ih =>
    cases keeps with
    | inl refers => exact .edge ih allocated refers
    | inr bound => exact tables.live_of_bound bound.1 ih allocated bound.2

theorem refersTo_of_sameLinks (same : SameLinks after linker) (refers : after.RefersTo source target) :
    linker.RefersTo source target := by
  have ⟨file, reloc, isReloc, patched, isTarget⟩ := refers
  exact ⟨file, reloc, same.relocations file ▸ isReloc, patched,
    (same.appliedSection reloc).symm.trans isTarget⟩

/-- The collection of a link as it is read is sound exactly when its array sections, and in p-code
the exception table that a live section refers to, are live. -/
theorem collection_sound_iff (options : LinkerOptions) (linker : Linker) (loaded : linker.Loaded)
    (enabled : options.gcSections = true) :
    CollectionSound options linker (linkerGarbageCollectSections options linker) ↔
      TablesLive options linker := by
  obtain ⟨sameLinks, discarded⟩ := loaded.collected enabled
  have live_of_retained {id : SectionId} (allocated : id ∈ linker.Allocated)
      (retained : id ∉ (linkerGarbageCollectSections options linker).Discarded) :
      linker.Live options id := by
    by_contra notLive
    exact retained ((discarded id).mpr ⟨allocated, notLive⟩)
  constructor
  · intro sound
    have live_of_kept {id : SectionId} (kept : linker.Kept options id) : linker.Live options id :=
      live_of_retained kept.mem (sound.retained id kept.mem kept)
    constructor
    · intro id allocated isArray
      exact live_of_kept (.root allocated (.inr isArray))
    · intro isPcode relocatable source live target allocated refers
      apply live_of_kept (.edge live.kept allocated (.inr ⟨relocatable, ?_⟩))
      obtain ⟨file, reloc, isReloc, patched, named, notLocal, group, isBound, found⟩ := refers
      refine ⟨file, reloc, isReloc, patched, named, notLocal, group, ?_, isPcode ▸ found⟩
      simp only [boundSymbols, List.mem_append, if_pos isPcode]
      exact .inl (.inl (.inl (.inl (.inl (.inr isBound)))))
  · intro tables
    constructor
    · intro id notAllocated isDiscarded
      exact notAllocated ((discarded id).mp isDiscarded).1
    · intro id allocated kept isDiscarded
      exact ((discarded id).mp isDiscarded).2 (tables.live_of_kept kept)
    · intro source allocated retained target refers isDiscarded
      obtain ⟨targetAllocated, notLive⟩ := (discarded target).mp isDiscarded
      exact notLive (.edge (live_of_retained allocated retained) targetAllocated
        (refersTo_of_sameLinks sameLinks refers))
    · intro id allocated notKept
      exact (discarded id).mpr ⟨allocated, fun live => notKept live.kept⟩

end Soundness

/-- The sets of allocated sections with the roots of the collection that no relocation leaves. -/
def Linker.ClosedSets (options : LinkerOptions) (linker : Linker) : Set (Set SectionId) :=
  { kept | kept ⊆ linker.Allocated ∧ linker.codeRoots options ∩ linker.Allocated ⊆ kept ∧
    ∀ source ∈ kept, ∀ target ∈ linker.Allocated, linker.RefersTo source target → target ∈ kept }

/-- The collection retains the least of these sets. -/
theorem retained_isLeast (options : LinkerOptions) (linker : Linker) (loaded : linker.Loaded)
    (enabled : options.gcSections = true) : IsLeast (linker.ClosedSets options)
      (linker.Allocated \ (linkerGarbageCollectSections options linker).Discarded) := by
  have retained : linker.Allocated \ (linkerGarbageCollectSections options linker).Discarded =
      { id | linker.Live options id } := by
    ext id
    rw [Set.mem_sdiff, (loaded.collected enabled).2 id]
    constructor
    · exact fun kept => by_contra fun notLive => kept.2 ⟨kept.1, notLive⟩
    · exact fun live => ⟨live.mem, fun gone => gone.2 live⟩
  rw [retained]
  constructor
  · exact ⟨fun _ live => live.mem, fun _ isRoot => .root isRoot.2 isRoot.1,
      fun _ live _ allocated refers => .edge live allocated refers⟩
  · rintro kept ⟨-, roots, closed⟩ id live
    induction live with
    | root allocated isRoot => exact roots ⟨isRoot, allocated⟩
    | edge _ allocated refers ih => exact closed _ ih _ allocated refers

def tableOptions : LinkerOptions where
  machine := machinePcode
  relocatable := false
  gcSections := true
  buildingDso := false
  entrySymbol := asciiName "_start"

/-- A string table with the entry symbol and the symbol at the start of the exception table. -/
def tableStrings : StringTable where
  size := 35
  contents := asciiName "_start" ++ 0 :: asciiName "__davecc_except_table_start" ++ [0]

def startSymbol : ELFSymbol := { name := 0, info := 0x12, shndx := 1, value := 0, size := 16 }

def tableSymbol : ELFSymbol := { name := 7, info := 0x10, shndx := 0, value := 0, size := 0 }

def tableSection (name : String) (type : BitVec 32) (flags : BitVec 64) : ELFReaderSection where
  name := asciiName name
  type := type
  flags := flags
  addralign := 8
  size := 16
  discarded := false
  gcRefs := []

def tableSections : List ELFReaderSection :=
  [tableSection "" 0 0, tableSection ".text" shtProgbits 0x6,
    tableSection ".davecc_except_table" shtProgbits 0x2]

/-- A program whose entry refers to the start of the exception table. -/
def tableLink : Linker :=
  linkerReadRelocation 0 1 tableStrings tableSymbol
    (linkerReadSymbol 0 tableStrings tableSymbol
      (linkerReadSymbol 0 tableStrings startSymbol
        { Linker.init with
          files := Linker.init.files ++ [{ ObjectFile.empty with sections := tableSections }] }))

theorem tableLink_loaded : tableLink.Loaded :=
  Linker.Reads.loaded (.relocation (.symbol (.symbol (.file .init tableSections (by decide)) 0
    tableStrings startSymbol) 0 tableStrings tableSymbol) 0 1 tableStrings tableSymbol)

theorem retained_isLeast_tableLink : IsLeast (tableLink.ClosedSets tableOptions)
    (tableLink.Allocated \ (linkerGarbageCollectSections tableOptions tableLink).Discarded) :=
  retained_isLeast tableOptions tableLink tableLink_loaded rfl

theorem collection_sound_tableLink :
    CollectionSound tableOptions tableLink (linkerGarbageCollectSections tableOptions tableLink) ↔
      TablesLive tableOptions tableLink :=
  collection_sound_iff tableOptions tableLink tableLink_loaded rfl

def tableRelocation : Relocation where
  symbolName := asciiName "__davecc_except_table_start"
  symbol := none
  symbolSection := none
  patched := some ⟨0, 1⟩

theorem tableLink_kept : tableLink.Kept tableOptions ⟨0, 2⟩ := by
  have text : Linker.Kept tableOptions tableLink ⟨0, 1⟩ := by
    apply Worklist.Reaches.root
    · exact ⟨tableSection ".text" shtProgbits 0x6, by decide +kernel, by decide⟩
    · exact .inl (.inr (.inl (by decide +kernel)))
  refine .edge text ⟨tableSection ".davecc_except_table" shtProgbits 0x2, by decide +kernel, by decide⟩
    (.inr ⟨rfl, 0, tableRelocation, by decide +kernel, rfl, rfl, by decide +kernel,
      asciiName ".davecc_except_table", by decide +kernel,
      tableSection ".davecc_except_table" shtProgbits 0x2, by decide +kernel, by decide⟩)

/-- The collection discards the exception table that the program refers to. -/
theorem not_collection_sound :
    ¬∀ (options : LinkerOptions) (linker : Linker), linker.Loaded → options.gcSections = true →
      CollectionSound options linker (linkerGarbageCollectSections options linker) := by
  intro sound
  have retained := (sound tableOptions tableLink tableLink_loaded rfl).retained ⟨0, 2⟩
    tableLink_kept.mem tableLink_kept
  have discarded : ((linkerGarbageCollectSections tableOptions tableLink).section? ⟨0, 2⟩).any
      ELFReaderSection.discarded = true := by
    decide +kernel
  exact retained ((Option.any_eq_true _ _).mp discarded)

end DaveCC.Linking
