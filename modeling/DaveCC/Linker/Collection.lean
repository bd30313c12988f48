import DaveCC.Linker.GarbageCollection

/-!
# What the collection discards

The marking of sections is that of a worklist, and what it leaves discarded is what no
relocations reach from its roots.
-/

namespace DaveCC.Linking

open DaveCC.Container Linker Worklist

section Update

variable {linker : Linker} {id other : SectionId} {file : FileId}
  {change : ELFReaderSection → ELFReaderSection}

theorem file_updateFile {edit : ObjectFile → ObjectFile} (other : FileId) :
    (linker.updateFile file edit).file other =
      if file = other ∧ file < linker.files.length then edit (linker.file other)
      else linker.file other := by
  rw [Linker.file, updateFile, List.getD_eq_getElem?_getD, List.getElem?_modify, Linker.file,
    List.getD_eq_getElem?_getD]
  by_cases same : file = other
  · subst same
    by_cases inside : file < linker.files.length
    · rw [if_pos ⟨rfl, inside⟩, List.getElem?_eq_getElem inside]
      simp only [if_true, Option.map_eq_map, Option.map_some, Option.getD_some]
    · rw [if_neg fun both => inside both.2, List.getElem?_eq_none (not_lt.mp inside)]
      rfl
  · rw [if_neg fun both => same both.1]
    simp only [if_neg same, Option.map_eq_map, Option.map_id']

theorem section?_updateSection :
    (linker.updateSection id change).section? other =
      if other = id then (linker.section? other).map change else linker.section? other := by
  rw [Linker.section?, updateSection, file_updateFile]
  by_cases sameFile : id.file = other.file
  · by_cases inside : id.file < linker.files.length
    · rw [if_pos ⟨sameFile, inside⟩, List.getElem?_modify]
      by_cases sameIndex : id.index = other.index
      · have same : other = id := by
          cases id
          cases other
          cases sameFile
          cases sameIndex
          rfl
        rw [if_pos same]
        simp only [if_pos sameIndex]
        rfl
      · have different : other ≠ id := fun same => sameIndex (same ▸ rfl)
        rw [if_neg different]
        simp only [if_neg sameIndex, Option.map_eq_map, Option.map_id']
        rfl
    · have isEmpty : linker.section? other = none := by
        rw [Linker.section?, Linker.file, List.getD_eq_getElem?_getD, ← sameFile,
          List.getElem?_eq_none (not_lt.mp inside)]
        rfl
      rw [if_neg fun both => inside both.2, ← Linker.section?, isEmpty]
      exact (ite_self _).symm
  · have different : other ≠ id := fun same => sameFile (same ▸ rfl)
    rw [if_neg fun both => sameFile both.1, if_neg different]
    rfl

/-- The relocations and the symbols are the same. -/
structure SameLinks (linker linker' : Linker) : Prop where
  relocations : ∀ file, (linker.file file).relocations = (linker'.file file).relocations
  locals : ∀ file, (linker.file file).localSymbolTable = (linker'.file file).localSymbolTable
  globals : linker.globalSymbolTable = linker'.globalSymbolTable

theorem SameLinks.refl (linker : Linker) : SameLinks linker linker :=
  ⟨fun _ => rfl, fun _ => rfl, rfl⟩

theorem SameLinks.trans {first second third : Linker} (one : SameLinks first second)
    (two : SameLinks second third) : SameLinks first third where
  relocations file := (one.relocations file).trans (two.relocations file)
  locals file := (one.locals file).trans (two.locals file)
  globals := one.globals.trans two.globals

theorem SameLinks.updateSection : SameLinks (linker.updateSection id change) linker where
  relocations file := by
    rw [Linker.updateSection, file_updateFile]
    split
    · rfl
    · rfl
  locals file := by
    rw [Linker.updateSection, file_updateFile]
    split
    · rfl
    · rfl
  globals := rfl

variable {linker' : Linker}

theorem SameLinks.objectFileFindSymbol (same : SameLinks linker linker') (name : Name) :
    linker.objectFileFindSymbol file name = linker'.objectFileFindSymbol file name := by
  rw [Linker.objectFileFindSymbol, Linker.objectFileFindSymbol, same.locals, same.globals]

theorem SameLinks.appliedSection (same : SameLinks linker linker') (reloc : Relocation) :
    linker.appliedSection file reloc = linker'.appliedSection file reloc := by
  rw [Linker.appliedSection, Linker.appliedSection, same.objectFileFindSymbol]

theorem mem_sectionIds_of_section? {input : ELFReaderSection} (found : linker.section? id = some input) :
    id ∈ linker.sectionIds := by
  have ⟨index, _⟩ := List.getElem?_eq_some_iff.mp found
  have file : id.file < linker.files.length := by
    apply lt_of_not_ge
    intro outside
    have empty : linker.file id.file = .empty := by
      rw [Linker.file, List.getD_eq_getElem?_getD, List.getElem?_eq_none outside]
      rfl
    rw [empty] at index
    exact absurd index (Nat.not_lt_zero _)
  exact List.mem_flatMap.mpr ⟨id.file, List.mem_range.mpr file,
    List.mem_map.mpr ⟨id.index, List.mem_range.mpr index, rfl⟩⟩

end Update

section Graph

variable {linker : Linker} {source target id : SectionId}

/-- All edges of relocations. -/
def Linker.edges (linker : Linker) : List (SectionId × SectionId) :=
  (List.range linker.files.length).flatMap fun file =>
    (linker.file file).relocations.filterMap (linker.edge? file)

def Linker.addEdge (linker : Linker) (edge : SectionId × SectionId) : Linker :=
  linker.updateSection edge.1 fun input => { input with gcRefs := input.gcRefs ++ [edge.2] }

theorem buildSectionRelocGraph_eq :
    buildSectionRelocGraph linker = linker.edges.foldl Linker.addEdge linker := by
  rw [buildSectionRelocGraph, Linker.edges, List.foldl_flatMap]
  congr 1
  funext graph file
  rw [List.foldl_filterMap]
  congr 1
  funext graph reloc
  cases linker.edge? file reloc with
  | none => rfl
  | some edge => rfl

/-- The targets of the edges from a section. -/
def targetsOf (id : SectionId) (edges : List (SectionId × SectionId)) : List SectionId :=
  (edges.filter fun edge => edge.1 = id).map Prod.snd

theorem mem_targetsOf {edges : List (SectionId × SectionId)} :
    target ∈ targetsOf source edges ↔ (source, target) ∈ edges := by
  rw [targetsOf, List.mem_map]
  constructor
  · intro ⟨edge, isIn, isTarget⟩
    have ⟨isEdge, isSource⟩ := List.mem_filter.mp isIn
    have same : edge = (source, target) := Prod.ext (of_decide_eq_true isSource) isTarget
    exact same ▸ isEdge
  · intro isEdge
    exact ⟨(source, target), List.mem_filter.mpr ⟨isEdge, decide_eq_true rfl⟩, rfl⟩

theorem section?_addEdges (edges : List (SectionId × SectionId)) :
    (edges.foldl Linker.addEdge linker).section? id =
      (linker.section? id).map fun input =>
        { input with gcRefs := input.gcRefs ++ targetsOf id edges } := by
  induction edges generalizing linker with
  | nil =>
    cases found : linker.section? id with
    | none => exact found
    | some input =>
      refine found.trans ?_
      rw [Option.map_some, targetsOf, List.filter_nil, List.map_nil, List.append_nil]
  | cons edge rest ih =>
    refine ih.trans ?_
    rw [Linker.addEdge, section?_updateSection, targetsOf, targetsOf, List.filter_cons]
    by_cases same : id = edge.1
    · rw [if_pos same, if_pos (decide_eq_true same.symm), Option.map_map]
      congr 1
      funext input
      rw [Function.comp_apply, List.map_cons, List.append_assoc]
      rfl
    · rw [if_neg same, if_neg fun isSource => same (of_decide_eq_true isSource).symm]

theorem section?_graph :
    (buildSectionRelocGraph linker).section? id =
      (linker.section? id).map fun input =>
        { input with gcRefs := input.gcRefs ++ targetsOf id linker.edges } := by
  rw [buildSectionRelocGraph_eq, section?_addEdges]

theorem sameLinks_addEdges (edges : List (SectionId × SectionId)) :
    SameLinks (edges.foldl Linker.addEdge linker) linker := by
  induction edges generalizing linker with
  | nil => exact .refl linker
  | cons edge rest ih => exact ih.trans .updateSection

theorem sameLinks_graph : SameLinks (buildSectionRelocGraph linker) linker := by
  rw [buildSectionRelocGraph_eq]
  exact sameLinks_addEdges linker.edges

theorem mem_edges_iff :
    (source, target) ∈ linker.edges ↔
      ∃ file, ∃ reloc ∈ (linker.file file).relocations, reloc.patched = some source ∧
        relocationTargetSection file reloc linker = some target := by
  have isEdge (file : FileId) (reloc : Relocation) :
      linker.edge? file reloc = some (source, target) ↔
        reloc.patched = some source ∧ relocationTargetSection file reloc linker = some target := by
    rw [Linker.edge?]
    cases reloc.patched with
    | none => simp only [reduceCtorEq, false_and]
    | some patched =>
      simp only [Option.map_eq_some_iff, Prod.mk.injEq, Option.some.injEq]
      constructor
      · rintro ⟨one, found, same, isTarget⟩
        exact ⟨same, isTarget ▸ found⟩
      · rintro ⟨same, found⟩
        exact ⟨target, found, same, rfl⟩
  rw [Linker.edges, List.mem_flatMap]
  constructor
  · rintro ⟨file, _, isIn⟩
    obtain ⟨reloc, isReloc, edge⟩ := List.mem_filterMap.mp isIn
    exact ⟨file, reloc, isReloc, (isEdge file reloc).mp edge⟩
  · rintro ⟨file, reloc, isReloc, edge⟩
    refine ⟨file, ?_, List.mem_filterMap.mpr ⟨reloc, isReloc, (isEdge file reloc).mpr edge⟩⟩
    rw [List.mem_range]
    apply lt_of_not_ge
    intro outside
    have empty : linker.file file = .empty := by
      rw [Linker.file, List.getD_eq_getElem?_getD, List.getElem?_eq_none outside]
      rfl
    rw [empty] at isReloc
    exact absurd isReloc List.not_mem_nil

end Graph

section Marking

/-- A section apart from whether it is discarded. -/
def ELFReaderSection.content (input : ELFReaderSection) : ELFReaderSection :=
  { input with discarded := false }

def Linker.content? (linker : Linker) (id : SectionId) : Option ELFReaderSection :=
  (linker.section? id).map ELFReaderSection.content

def Linker.Allocated (linker : Linker) : Set SectionId :=
  { id | ∃ input, linker.section? id = some input ∧ input.isAllocated = true }

def Linker.Discarded (linker : Linker) : Set SectionId :=
  { id | ∃ input, linker.section? id = some input ∧ input.discarded = true }

/-- The marking of a link is a worklist over its allocated sections. -/
structure Reflects (base : Linker) (marking : Marking) (work : Worklist SectionId) : Prop where
  links : SameLinks marking.linker base
  content : ∀ id, marking.linker.content? id = base.content? id
  discarded : ∀ id, id ∈ work.unmarked ↔ id ∈ marking.linker.Discarded
  allocated : ∀ id ∈ work.unmarked, id ∈ base.Allocated
  pending : marking.worklist = work.pending

variable {base : Linker} {marking : Marking} {work : Worklist SectionId} {id other : SectionId}
  {value : Bool}

theorem content?_discard {linker : Linker} :
    (linker.updateSection id fun input => { input with discarded := value }).content? other =
      linker.content? other := by
  rw [Linker.content?, section?_updateSection]
  split
  · rw [Option.map_map]
    rfl
  · rfl

theorem mem_discarded_update {linker : Linker} :
    other ∈ (linker.updateSection id fun input => { input with discarded := value }).Discarded ↔
      if other = id then (linker.section? other).isSome ∧ value = true
      else other ∈ linker.Discarded := by
  rw [Linker.Discarded, Set.mem_ofPred_eq, section?_updateSection]
  split
  · cases found : linker.section? other with
    | none => simp only [Option.map_none, reduceCtorEq, false_and, exists_false, Option.isSome_none,
        Bool.false_eq_true]
    | some input => simp only [Option.map_some, Option.some.injEq, exists_eq_left', Option.isSome_some,
        true_and]
  · rfl

theorem allocated_of_content {linker linker' : Linker} (same : linker.content? id = linker'.content? id)
    (allocated : id ∈ linker.Allocated) : id ∈ linker'.Allocated := by
  have ⟨input, found, isAllocated⟩ := allocated
  rw [Linker.content?, Linker.content?, found] at same
  have ⟨input', found', sameContent⟩ := Option.map_eq_some_iff.mp same.symm
  have sameAllocated := congrArg ELFReaderSection.isAllocated sameContent
  exact ⟨input', found', sameAllocated.trans isAllocated⟩

/-- `MarkSectionLive` marks a node of the worklist. -/
theorem Reflects.mark (reflects : Reflects base marking work) (id : SectionId) :
    Reflects base (markSectionLive id marking) (work.mark id) := by
  rw [markSectionLive, Worklist.mark]
  cases found : marking.linker.section? id with
  | none =>
    have marked : id ∉ work.unmarked := by
      intro isIn
      obtain ⟨input, isInput, _⟩ := (reflects.discarded id).mp isIn
      exact absurd (found.symm.trans isInput) (Option.some_ne_none _).symm
    rw [if_neg marked]
    exact reflects
  | some input =>
    dsimp only
    cases discarded : input.discarded with
    | false =>
      have marked : id ∉ work.unmarked := by
        intro isIn
        obtain ⟨input', isInput, isDiscarded⟩ := (reflects.discarded id).mp isIn
        cases found.symm.trans isInput
        exact Bool.false_ne_true (discarded.symm.trans isDiscarded)
      rw [if_neg marked]
      exact reflects
    | true =>
      have unmarked : id ∈ work.unmarked := (reflects.discarded id).mpr ⟨input, found, discarded⟩
      have isAllocated : input.isAllocated = true := by
        obtain ⟨input', isInput, allocated⟩ := allocated_of_content (reflects.content id).symm
          (reflects.allocated id unmarked)
        cases found.symm.trans isInput
        exact allocated
      rw [if_pos unmarked, isAllocated]
      simp only [Bool.not_true, Bool.false_eq_true, if_false]
      constructor
      · exact SameLinks.updateSection.trans reflects.links
      · intro other
        exact content?_discard.trans (reflects.content other)
      · intro other
        rw [mem_discarded_update, Finset.mem_erase, reflects.discarded]
        split
        · next same => simp only [same, ne_eq, not_true_eq_false, false_and, Bool.false_eq_true,
            and_false]
        · next different => simp only [ne_eq, different, not_false_eq_true, true_and]
      · intro other isIn
        exact reflects.allocated other (Finset.mem_of_mem_erase isIn)
      · exact congrArg (· ++ [id]) reflects.pending

theorem Reflects.markAll (reflects : Reflects base marking work) (ids : List SectionId) :
    Reflects base (ids.foldl (fun marking id => markSectionLive id marking) marking)
      (work.markAll ids) := by
  induction ids generalizing marking work with
  | nil => exact reflects
  | cons head rest ih => exact ih (reflects.mark head)

/-- The edges from a section. -/
def Linker.references (linker : Linker) (id : SectionId) : List SectionId :=
  (linker.section? id).elim [] ELFReaderSection.gcRefs

theorem references_of_content {linker linker' : Linker}
    (same : linker.content? id = linker'.content? id) :
    linker.references id = linker'.references id := by
  have ofContent (linker : Linker) :
      linker.references id = (linker.content? id).elim [] ELFReaderSection.gcRefs := by
    rw [references, Linker.content?]
    cases linker.section? id with
    | none => rfl
    | some input => rfl
  rw [ofContent, ofContent, same]

/-- The loop over the worklist drains it. -/
theorem Reflects.drain (reflects : Reflects base marking work) (fuel : Nat) :
    Reflects base (drainWorklist fuel marking) (work.drain base.references fuel) := by
  induction fuel generalizing marking work with
  | zero => exact reflects
  | succ fuel ih =>
    rw [drainWorklist, Worklist.drain, reflects.pending]
    cases work.pending.getLast? with
    | none => exact reflects
    | some id =>
      have popped : Reflects base { marking with worklist := work.pending.dropLast }
          ⟨work.unmarked, work.pending.dropLast⟩ :=
        ⟨reflects.links, reflects.content, reflects.discarded, reflects.allocated, rfl⟩
      have sameReferences : marking.linker.references id = base.references id :=
        references_of_content (reflects.content id)
      have followed := popped.markAll (base.references id)
      rw [← sameReferences] at followed
      dsimp only
      rw [← sameReferences]
      exact ih followed

end Marking

/-! ## The roots -/

section Roots

/-- A section that is a root by its name or its flags. -/
def Linker.RootNamed (linker : Linker) (id : SectionId) : Prop :=
  ∃ input, linker.section? id = some input ∧ sectionIsGCRoot input.name input.flags = true

/-- The sections of the symbols that a shared object exports. -/
def Linker.exportedSections (linker : Linker) : List SectionId :=
  linker.globalSymbolTable.entries.flatten.filterMap fun symbol =>
    if symbol.defined then symbol.definingSection else none

/-- The roots of the collection. -/
def Linker.codeRoots (options : LinkerOptions) (linker : Linker) : Set SectionId :=
  { id | linker.RootNamed id ∨ linker.entrySection options = some id ∨
      options.buildingDso = true ∧ id ∈ linker.exportedSections }

variable {options : LinkerOptions} {base linker : Linker} {marking : Marking}
  {work : Worklist SectionId} {id : SectionId} {done : List SectionId}

/-- The first sections have been discarded, but for the roots among them, which are pending. -/
structure DiscardedUpTo (base : Linker) (done : List SectionId) (marking : Marking)
    (work : Worklist SectionId) : Prop where
  reflects : Reflects base marking work
  unmarked : ∀ id, id ∈ work.unmarked ↔ id ∈ done ∧ id ∈ base.Allocated ∧ ¬base.RootNamed id
  pending : ∀ id, id ∈ work.pending ↔ id ∈ done ∧ id ∈ base.Allocated ∧ base.RootNamed id

section

variable (reflects : Reflects base marking work) {input : ELFReaderSection}
  (found : marking.linker.section? id = some input)

include reflects found

theorem Reflects.section? :
    ∃ input', base.section? id = some input' ∧ input'.content = input.content := by
  have same := reflects.content id
  rw [Linker.content?, Linker.content?, found] at same
  exact Option.map_eq_some_iff.mp same.symm

theorem Reflects.allocated_iff : id ∈ base.Allocated ↔ input.isAllocated = true := by
  have ⟨input', found', sameContent⟩ := reflects.section? found
  have sameAllocated := congrArg ELFReaderSection.isAllocated sameContent
  constructor
  · intro ⟨one, isOne, allocated⟩
    cases found'.symm.trans isOne
    exact sameAllocated.symm.trans allocated
  · intro allocated
    exact ⟨input', found', sameAllocated.trans allocated⟩

theorem Reflects.rootNamed_iff :
    base.RootNamed id ↔ sectionIsGCRoot input.name input.flags = true := by
  have ⟨input', found', sameContent⟩ := reflects.section? found
  have sameRoot := congrArg (fun input : ELFReaderSection =>
    sectionIsGCRoot input.name input.flags) sameContent
  constructor
  · intro ⟨one, isOne, isRoot⟩
    cases found'.symm.trans isOne
    exact sameRoot.symm.trans isRoot
  · intro isRoot
    exact ⟨input', found', sameRoot.trans isRoot⟩

end

theorem Reflects.not_allocated (reflects : Reflects base marking work)
    (missing : marking.linker.section? id = none) : id ∉ base.Allocated := by
  intro allocated
  have ⟨input, found, _⟩ := allocated_of_content (reflects.content id).symm allocated
  exact absurd (missing.symm.trans found) (Option.some_ne_none _).symm

/-- A section is discarded. -/
theorem Reflects.discard (reflects : Reflects base marking work) (allocated : id ∈ base.Allocated) :
    Reflects base
      { marking with
        linker := marking.linker.updateSection id fun input => { input with discarded := true } }
      ⟨insert id work.unmarked, work.pending⟩ := by
  have ⟨input, found, _⟩ := allocated_of_content (reflects.content id).symm allocated
  constructor
  · exact SameLinks.updateSection.trans reflects.links
  · intro other
    exact content?_discard.trans (reflects.content other)
  · intro other
    rw [mem_discarded_update, Finset.mem_insert, reflects.discarded]
    split
    · next same =>
        rw [same, found]
        exact iff_of_true (.inl rfl) ⟨rfl, rfl⟩
    · next different => exact or_iff_right different
  · intro other isIn
    cases Finset.mem_insert.mp isIn with
    | inl same => exact same ▸ allocated
    | inr before => exact reflects.allocated other before
  · exact reflects.pending

theorem mem_concat_iff {ids : List SectionId} {other : SectionId} :
    other ∈ ids ++ [id] ↔ other ∈ ids ∨ other = id := by
  rw [List.mem_append, List.mem_singleton]

/-- One more section. -/
theorem DiscardedUpTo.discardSection (discarded : DiscardedUpTo base done marking work)
    (id : SectionId) :
    ∃ work', DiscardedUpTo base (done ++ [id]) (discardSection id marking) work' := by
  have kept (notAllocated : id ∉ base.Allocated) : DiscardedUpTo base (done ++ [id]) marking work := by
    refine ⟨discarded.reflects, ?_, ?_⟩
    · intro other
      rw [discarded.unmarked, mem_concat_iff]
      constructor
      · rintro ⟨isIn, rest⟩
        exact ⟨.inl isIn, rest⟩
      · rintro ⟨isIn, allocated, rest⟩
        exact ⟨isIn.resolve_right fun same => notAllocated (same ▸ allocated), allocated, rest⟩
    · intro other
      rw [discarded.pending, mem_concat_iff]
      constructor
      · rintro ⟨isIn, rest⟩
        exact ⟨.inl isIn, rest⟩
      · rintro ⟨isIn, allocated, rest⟩
        exact ⟨isIn.resolve_right fun same => notAllocated (same ▸ allocated), allocated, rest⟩
  rw [Linking.discardSection]
  cases found : marking.linker.section? id with
  | none => exact ⟨work, kept (discarded.reflects.not_allocated found)⟩
  | some input =>
    dsimp only
    have allocatedIff := discarded.reflects.allocated_iff found
    have rootIff := discarded.reflects.rootNamed_iff found
    cases isAllocated : input.isAllocated with
    | false =>
      rw [isAllocated] at allocatedIff
      exact ⟨work, kept fun allocated => Bool.false_ne_true (allocatedIff.mp allocated)⟩
    | true =>
      have allocated := allocatedIff.mpr isAllocated
      have reflects := discarded.reflects.discard allocated
      cases isRoot : sectionIsGCRoot input.name input.flags with
      | false =>
        have notRoot : ¬base.RootNamed id :=
          fun root => Bool.false_ne_true (isRoot.symm.trans (rootIff.mp root))
        refine ⟨_, reflects, ?_, ?_⟩
        · intro other
          rw [Finset.mem_insert, discarded.unmarked, mem_concat_iff]
          constructor
          · intro either
            cases either with
            | inl same => exact ⟨.inr same, same ▸ allocated, same ▸ notRoot⟩
            | inr before => exact ⟨.inl before.1, before.2⟩
          · rintro ⟨isIn, rest⟩
            cases isIn with
            | inl before => exact .inr ⟨before, rest⟩
            | inr same => exact .inl same
        · intro other
          rw [discarded.pending, mem_concat_iff]
          constructor
          · rintro ⟨isIn, rest⟩
            exact ⟨.inl isIn, rest⟩
          · rintro ⟨isIn, isAllocated, root⟩
            exact ⟨isIn.resolve_right fun same => notRoot (same ▸ root), isAllocated, root⟩
      | true =>
        have root := rootIff.mpr isRoot
        have marked := reflects.mark id
        rw [Worklist.mark, if_pos (Finset.mem_insert_self id work.unmarked)] at marked
        refine ⟨_, marked, ?_, ?_⟩
        · intro other
          rw [Finset.mem_erase, Finset.mem_insert, discarded.unmarked, mem_concat_iff]
          constructor
          · rintro ⟨different, either⟩
            have before := either.resolve_left different
            exact ⟨.inl before.1, before.2⟩
          · rintro ⟨isIn, isAllocated, notRoot⟩
            have different : other ≠ id := fun same => notRoot (same ▸ root)
            exact ⟨different, .inr ⟨isIn.resolve_right different, isAllocated, notRoot⟩⟩
        · intro other
          rw [mem_concat_iff, mem_concat_iff, discarded.pending]
          constructor
          · intro either
            cases either with
            | inl before => exact ⟨.inl before.1, before.2⟩
            | inr same => exact ⟨.inr same, same ▸ allocated, same ▸ root⟩
          · rintro ⟨isIn, rest⟩
            cases isIn with
            | inl before => exact .inl ⟨before, rest⟩
            | inr same => exact .inr same

theorem DiscardedUpTo.discardAll (discarded : DiscardedUpTo base done marking work)
    (ids : List SectionId) :
    ∃ work', DiscardedUpTo base (done ++ ids)
      (ids.foldl (fun marking id => Linking.discardSection id marking) marking) work' := by
  induction ids generalizing done marking work with
  | nil =>
    rw [List.append_nil]
    exact ⟨work, discarded⟩
  | cons head rest ih =>
    have ⟨next, step⟩ := discarded.discardSection head
    have ⟨last, run⟩ := ih step
    rw [List.append_assoc] at run
    exact ⟨last, run⟩

/-- A link whose sections are all retained. -/
structure Linker.Fresh (linker : Linker) : Prop where
  retained : ∀ id, id ∉ linker.Discarded
  unreferenced : ∀ id input, linker.section? id = some input → input.gcRefs = []

theorem DiscardedUpTo.marks (discarded : DiscardedUpTo base base.sectionIds marking work)
    (options : LinkerOptions) :
    work.Marks base.Allocated (base.codeRoots options) base.references ∅ := by
  have isIn {id : SectionId} (allocated : id ∈ base.Allocated) : id ∈ base.sectionIds := by
    have ⟨input, found, _⟩ := allocated
    exact mem_sectionIds_of_section? found
  have rooted {id : SectionId} (allocated : id ∈ base.Allocated) (marked : id ∉ work.unmarked) :
      base.RootNamed id := by
    by_contra notRoot
    exact marked ((discarded.unmarked id).mpr ⟨isIn allocated, allocated, notRoot⟩)
  constructor
  · exact discarded.reflects.allocated
  · intro id isPending
    have ⟨_, allocated, root⟩ := (discarded.pending id).mp isPending
    exact ⟨allocated, fun unmarked => ((discarded.unmarked id).mp unmarked).2.2 root⟩
  · intro id allocated marked
    exact .root allocated (.inl (rooted allocated marked))
  · intro source allocated marked notPending
    exact absurd
      ((discarded.pending source).mpr ⟨isIn allocated, allocated, rooted allocated marked⟩) notPending

theorem markExported_eq (exported : options.buildingDso = true) :
    markExported options marking =
      marking.linker.exportedSections.foldl (fun marking id => markSectionLive id marking)
        marking := by
  rw [markExported, if_pos exported, exportedSections, List.foldl_filterMap, List.foldl_flatten]
  congr 1
  funext marking bucket
  rw [markDefinedSymbolSection]
  congr 1
  funext marking symbol
  cases symbol.defined with
  | true =>
    cases symbol.definingSection with
    | none => rfl
    | some id => rfl
  | false =>
    cases symbol.definingSection with
    | none => rfl
    | some id => rfl

/-- The link, its roots and the worklist that the roots make. -/
structure Rooted (options : LinkerOptions) (base : Linker) (marking : Marking)
    (work : Worklist SectionId) : Prop where
  reflects : Reflects base marking work
  marks : work.Marks base.Allocated (base.codeRoots options) base.references ∅
  rooted : ∀ root ∈ base.codeRoots options, root ∉ work.unmarked

theorem rooted_markRoots (options : LinkerOptions) (base : Linker)
    (retained : ∀ id, id ∉ base.Discarded) :
    ∃ work, Rooted options base (markRoots options base) work := by
  have start : DiscardedUpTo base [] ⟨base, []⟩ ⟨∅, []⟩ := by
    refine ⟨⟨.refl base, fun _ => rfl, ?_, ?_, rfl⟩, ?_, ?_⟩
    · intro id
      exact iff_of_false (Finset.notMem_empty id) (retained id)
    · intro id isIn
      exact absurd isIn (Finset.notMem_empty id)
    · intro id
      exact iff_of_false (Finset.notMem_empty id) fun done => List.not_mem_nil done.1
    · intro id
      exact iff_of_false List.not_mem_nil fun done => List.not_mem_nil done.1
  have ⟨discardedWork, discarded⟩ := start.discardAll base.sectionIds
  have discardedMarks := discarded.marks options
  -- The entry symbol.
  have ⟨entryWork, entryReflects, entryMarks, entryMarked, entryFewer⟩ : ∃ work,
      Reflects base (markEntry options (base.sectionIds.foldl
        (fun marking id => discardSection id marking) ⟨base, []⟩)) work ∧
      work.Marks base.Allocated (base.codeRoots options) base.references ∅ ∧
      (∀ id, base.entrySection options = some id → id ∉ work.unmarked) ∧
      ∀ id ∈ work.unmarked, id ∈ discardedWork.unmarked := by
    have sameEntry : (base.sectionIds.foldl (fun marking id => discardSection id marking)
        ⟨base, []⟩).linker.entrySection options = base.entrySection options := by
      rw [entrySection, entrySection, discarded.reflects.links.globals]
    rw [markEntry, sameEntry]
    cases entry : base.entrySection options with
    | none => exact ⟨discardedWork, discarded.reflects, discardedMarks, nofun, fun _ isIn => isIn⟩
    | some id =>
      refine ⟨discardedWork.mark id, discarded.reflects.mark id, discardedMarks.mark ?_, ?_, ?_⟩
      · exact fun allocated => .root allocated (.inr (.inl entry))
      · intro other same
        cases same
        exact not_mem_unmarked_mark
      · exact fun _ => unmarked_mark_subset
  have notNamed {root : SectionId} (named : base.RootNamed root) : root ∉ discardedWork.unmarked :=
    fun unmarked => ((discarded.unmarked root).mp unmarked).2.2 named
  rw [markRoots]
  cases exported : options.buildingDso with
  | false =>
    refine ⟨entryWork, ?_, entryMarks, ?_⟩
    · rw [markExported, exported]
      exact entryReflects
    · intro root isRoot
      rcases isRoot with named | entry | ⟨dso, _⟩
      · exact fun unmarked => notNamed named (entryFewer root unmarked)
      · exact entryMarked root entry
      · exact absurd (exported.symm.trans dso) Bool.false_ne_true
  | true =>
    have sameExported : (markEntry options (base.sectionIds.foldl
        (fun marking id => discardSection id marking) ⟨base, []⟩)).linker.exportedSections =
        base.exportedSections := by
      rw [exportedSections, exportedSections, entryReflects.links.globals]
    refine ⟨entryWork.markAll base.exportedSections, ?_, entryMarks.markAll base.exportedSections ?_, ?_⟩
    · rw [markExported_eq exported, sameExported]
      exact entryReflects.markAll base.exportedSections
    · exact fun target isIn allocated => .root allocated (.inr (.inr ⟨exported, isIn⟩))
    · intro root isRoot
      rcases isRoot with named | entry | ⟨_, isIn⟩
      · exact fun unmarked =>
          notNamed named (entryFewer root (unmarked_markAll_subset unmarked))
      · exact fun unmarked => entryMarked root entry (unmarked_markAll_subset unmarked)
      · exact not_mem_unmarked_markAll isIn

end Roots

end DaveCC.Linking
