import DaveCC.Backend.UnreachableBlocks

/-!
# Removing unreachable blocks

With right answers about reachability `RemoveUnreachableBlocks` clears the blocks that neither
the entry nor an exception label leads to, and a branch that stays still has its label.
-/

namespace DaveCC.Backend

open DaveCC.Graph DaveCC.Loop

namespace Generator

variable {gen after : Generator} {metadata : ExceptionMetadata} {fuel : Nat} {id : BlockId}

/-- An exception label leads to the block. -/
def ReachedFromLabel (gen : Generator) (metadata : ExceptionMetadata) (id : BlockId) : Prop :=
  ∃ root ∈ metadata.roots, Relation.ReflTransGen gen.Edge root id

/-- What one iteration of the search keeps. -/
structure LabelSearch (gen : Generator) (metadata : ExceptionMetadata) (search : ExceptionSearch) :
    Prop where
  reached : ∀ id ∈ search.reachable, gen.ReachedFromLabel metadata id
  waiting : ∀ id ∈ search.work, gen.ReachedFromLabel metadata id
  roots : ∀ root ∈ metadata.roots, root ∈ search.visited ∨ root ∈ search.work
  visited : search.visited ⊆ search.reachable
  closed : ∀ source ∈ search.visited, ∀ target, gen.Edge source target →
    target ∈ search.visited ∨ target ∈ search.work

variable {search : ExceptionSearch} {work : List BlockId}

theorem LabelSearch.drop (holds : gen.LabelSearch metadata search)
    (isWork : search.work = id :: work) (isVisited : id ∈ search.visited) :
    gen.LabelSearch metadata { search with work } where
  reached := holds.reached
  waiting := fun other inside => holds.waiting other (isWork ▸ List.mem_cons_of_mem _ inside)
  roots := by
    intro root isRoot
    have before := holds.roots root isRoot
    grind
  visited := holds.visited
  closed := by
    intro source inside target follows
    have before := holds.closed source inside target follows
    grind

theorem LabelSearch.visit (holds : gen.LabelSearch metadata search)
    (isWork : search.work = id :: work) :
    gen.LabelSearch metadata
      { work := ((gen.block id).outEdges.filter (· ∉ insert id search.visited)).reverse ++ work
        visited := insert id search.visited
        reachable := insert id search.reachable } where
  reached := by
    intro other inside
    cases Finset.mem_insert.mp inside with
    | inl same =>
      rw [same]
      exact holds.waiting id (isWork ▸ List.mem_cons_self)
    | inr before => exact holds.reached other before
  waiting := by
    intro other inside
    cases List.mem_append.mp inside with
    | inl isNew =>
      have follows : gen.Edge id other := (List.mem_filter.mp (List.mem_reverse.mp isNew)).1
      rcases holds.waiting id (isWork ▸ List.mem_cons_self) with ⟨root, isRoot, path⟩
      exact ⟨root, isRoot, path.tail follows⟩
    | inr before => exact holds.waiting other (isWork ▸ List.mem_cons_of_mem _ before)
  roots := by
    intro root isRoot
    have before := holds.roots root isRoot
    grind
  visited := Finset.insert_subset_insert id holds.visited
  closed := by
    intro source inside target follows
    by_cases isVisited : target ∈ insert id search.visited
    · exact Or.inl isVisited
    · apply Or.inr
      cases Finset.mem_insert.mp inside with
      | inl same =>
        rw [same] at follows
        apply List.mem_append_left
        rw [List.mem_reverse, List.mem_filter]
        exact ⟨follows, decide_eq_true isVisited⟩
      | inr before =>
        have known := holds.closed source before target follows
        grind

/-- The blocks that wait, with the out edges of those that are not visited. -/
def labelsRemaining (gen : Generator) (search : ExceptionSearch) : Nat :=
  search.work.length +
    ∑ id ∈ Finset.range gen.basicBlocks.length \ search.visited, (gen.block id).outEdges.length

/-- The iterations that are enough for the search. -/
def labelsBound (gen : Generator) (metadata : ExceptionMetadata) : Nat :=
  metadata.roots.length + ∑ id ∈ Finset.range gen.basicBlocks.length, (gen.block id).outEdges.length

theorem labelsRemaining_visit (isWork : search.work = id :: work) (isNew : id ∉ search.visited) :
    gen.labelsRemaining
      { work := ((gen.block id).outEdges.filter (· ∉ insert id search.visited)).reverse ++ work
        visited := insert id search.visited
        reachable := insert id search.reachable } < gen.labelsRemaining search := by
  have fewer : ((gen.block id).outEdges.filter (· ∉ insert id search.visited)).length +
      ∑ other ∈ Finset.range gen.basicBlocks.length \ insert id search.visited,
        (gen.block other).outEdges.length ≤
      ∑ other ∈ Finset.range gen.basicBlocks.length \ search.visited,
        (gen.block other).outEdges.length := by
    by_cases isBlock : id < gen.basicBlocks.length
    · have counted : id ∈ Finset.range gen.basicBlocks.length \ search.visited :=
        Finset.mem_sdiff.mpr ⟨Finset.mem_range.mpr isBlock, isNew⟩
      have total := Finset.add_sum_erase _ (fun id => (gen.block id).outEdges.length) counted
      rw [Finset.sdiff_insert, ← total]
      exact Nat.add_le_add_right (List.length_filter_le _ _) _
    · rw [block_of_length_le (Nat.not_lt.mp isBlock), List.filter_nil, List.length_nil, Nat.zero_add]
      apply Finset.sum_le_sum_of_subset
      exact Finset.sdiff_subset_sdiff (Finset.Subset.refl _) (Finset.subset_insert _ _)
  rw [labelsRemaining, labelsRemaining, isWork, List.length_append, List.length_reverse,
    List.length_cons]
  dsimp only
  omega

theorem LabelSearch.step (holds : gen.LabelSearch metadata search)
    (nonempty : search.work.isEmpty = false) :
    gen.LabelSearch metadata (gen.exceptionSearchStep search) ∧
      gen.labelsRemaining (gen.exceptionSearchStep search) < gen.labelsRemaining search := by
  cases isWork : search.work with
  | nil =>
    rw [isWork] at nonempty
    cases nonempty
  | cons id work =>
    by_cases isVisited : id ∈ search.visited
    · have dropped : gen.exceptionSearchStep search = { search with work } := by
        simp only [exceptionSearchStep, isWork, isVisited, if_true]
      rw [dropped]
      refine ⟨holds.drop isWork isVisited, ?_⟩
      rw [labelsRemaining, labelsRemaining, isWork, List.length_cons]
      dsimp only
      omega
    · have visits : gen.exceptionSearchStep search =
          { work :=
              ((gen.block id).outEdges.filter (· ∉ insert id search.visited)).reverse ++ work
            visited := insert id search.visited
            reachable := insert id search.reachable } := by
        simp [exceptionSearchStep, isWork, isVisited]
      rw [visits]
      exact ⟨holds.visit isWork, labelsRemaining_visit isWork isVisited⟩

/-- When no block waits, the labels lead to the visited blocks only. -/
theorem LabelSearch.complete (holds : gen.LabelSearch metadata search) (done : search.work = [])
    (id : BlockId) : id ∈ search.reachable ↔ gen.ReachedFromLabel metadata id := by
  refine ⟨holds.reached id, ?_⟩
  intro reached
  rcases reached with ⟨root, isRoot, path⟩
  have rootVisited := holds.roots root isRoot
  rw [done] at rootVisited
  apply holds.visited
  induction path with
  | refl => exact rootVisited.resolve_right List.not_mem_nil
  | tail _ follows ih =>
    have visited := holds.closed _ ih _ follows
    rw [done] at visited
    exact visited.resolve_right List.not_mem_nil

/-- The search finds the blocks that the labels lead to. -/
theorem exists_exceptionReachable (enough : gen.labelsBound metadata ≤ fuel) :
    ∃ keep, gen.exceptionReachable fuel metadata = some keep ∧
      ∀ id, id ∈ keep ↔ gen.ReachedFromLabel metadata id := by
  have start : gen.LabelSearch metadata
      { work := metadata.roots.reverse, reachable := metadata.roots.toFinset } := by
    constructor
    · intro id inside
      exact ⟨id, List.mem_toFinset.mp inside, .refl⟩
    · intro id inside
      exact ⟨id, List.mem_reverse.mp inside, .refl⟩
    · intro root isRoot
      exact Or.inr (List.mem_reverse.mpr isRoot)
    · exact Finset.empty_subset _
    · intro source inside
      exact absurd inside (Finset.notMem_empty source)
  have bounded : gen.labelsRemaining
      { work := metadata.roots.reverse, reachable := metadata.roots.toFinset } ≤ fuel := by
    rw [labelsRemaining, List.length_reverse, Finset.sdiff_empty]
    exact enough
  have loop : ∃ final,
      runWhile (fun search => !search.work.isEmpty)
        (fun search => some (gen.exceptionSearchStep search)) fuel
        { work := metadata.roots.reverse, reachable := metadata.roots.toFinset } = some final ∧
      gen.LabelSearch metadata final ∧ (!final.work.isEmpty) = false := by
    apply exists_runWhile (gen.LabelSearch metadata) gen.labelsRemaining _ start bounded
    intro search holds continues
    exact ⟨_, rfl, holds.step (by simpa using continues)⟩
  rcases loop with ⟨final, returns, holds, finished⟩
  refine ⟨final.reachable, ?_, holds.complete (by simpa using finished)⟩
  rw [exceptionReachable, returns]
  rfl

/-! ## Clearing a block -/

/-- Some nodes are taken out of the lists of their operands and users. -/
structure RemovesNodes (gen : Generator) (removed : NodeId → Prop) (after : Generator) : Prop where
  basicBlocks : after.basicBlocks = gen.basicBlocks
  entryBlock : after.entryBlock = gen.entryBlock
  opcode : ∀ inst, (after.nodes inst).opcode = (gen.nodes inst).opcode
  inputs : ∀ inst operand, ¬ removed operand → operand ∈ (gen.nodes inst).inputs →
    operand ∈ (after.nodes inst).inputs

variable {removed : NodeId → Prop} {middle : Generator}

theorem RemovesNodes.refl (gen : Generator) (removed : NodeId → Prop) :
    gen.RemovesNodes removed gen :=
  ⟨rfl, rfl, fun _ => rfl, fun _ _ _ inside => inside⟩

theorem RemovesNodes.trans (first : gen.RemovesNodes removed middle)
    (second : middle.RemovesNodes removed after) : gen.RemovesNodes removed after where
  basicBlocks := second.basicBlocks.trans first.basicBlocks
  entryBlock := second.entryBlock.trans first.entryBlock
  opcode := fun inst => (second.opcode inst).trans (first.opcode inst)
  inputs := fun inst operand isKept inside =>
    second.inputs inst operand isKept (first.inputs inst operand isKept inside)

theorem RemovesNodes.foldl {Item : Type*} {step : Generator → Item → Generator} {items : List Item}
    (steps : ∀ gen : Generator, ∀ item ∈ items, gen.RemovesNodes removed (step gen item))
    (gen : Generator) : gen.RemovesNodes removed (items.foldl step gen) := by
  induction items generalizing gen with
  | nil => exact .refl gen removed
  | cons item rest ih =>
    exact (steps gen item List.mem_cons_self).trans
      (ih (fun gen item inside => steps gen item (List.mem_cons_of_mem _ inside)) _)

theorem nodes_modifyNode (gen : Generator) (id inst : NodeId) (change : IRNode → IRNode) :
    (gen.modifyNode id change).nodes inst =
      if inst = id then change (gen.nodes id) else gen.nodes inst :=
  Function.update_apply _ _ _ _

theorem removesNodes_modifyNode (gen : Generator) (id : NodeId) {change : IRNode → IRNode}
    (opcode : (change (gen.nodes id)).opcode = (gen.nodes id).opcode)
    (inputs : ∀ operand, ¬ removed operand → operand ∈ (gen.nodes id).inputs →
      operand ∈ (change (gen.nodes id)).inputs) :
    gen.RemovesNodes removed (gen.modifyNode id change) := by
  refine ⟨rfl, rfl, ?_, ?_⟩
  · intro inst
    by_cases same : inst = id
    · rw [same, nodes_modifyNode, if_pos rfl, opcode]
    · rw [nodes_modifyNode, if_neg same]
  · intro inst operand isKept inside
    by_cases same : inst = id
    · rw [same] at inside ⊢
      rw [nodes_modifyNode, if_pos rfl]
      exact inputs operand isKept inside
    · rw [nodes_modifyNode, if_neg same]
      exact inside

theorem removesNodes_irRemoveNode (gen : Generator) {inst : NodeId} (isRemoved : removed inst) :
    gen.RemovesNodes removed (gen.irRemoveNode inst) := by
  apply RemovesNodes.trans (RemovesNodes.foldl _ gen) (RemovesNodes.foldl _ _)
  · intro gen input _
    exact gen.removesNodes_modifyNode input rfl fun _ _ inside => inside
  · intro gen output _
    apply gen.removesNodes_modifyNode output rfl
    intro operand isKept inside
    have apart : operand ≠ inst := by
      intro same
      rw [same] at isKept
      exact isKept isRemoved
    exact (List.mem_erase_of_ne apart).mpr inside

/-- In edges from one block are removed. -/
structure RemovesInputs (gen : Generator) (id : BlockId) (after : Generator) : Prop where
  nodes : after.nodes = gen.nodes
  length : after.basicBlocks.length = gen.basicBlocks.length
  entryBlock : after.entryBlock = gen.entryBlock
  others : ∀ other,
    after.block other = { gen.block other with inEdges := (after.block other).inEdges }
  fewer : ∀ other, (after.block other).inEdges ⊆ (gen.block other).inEdges
  inEdges : ∀ other source, source ≠ id → source ∈ (gen.block other).inEdges →
    source ∈ (after.block other).inEdges

theorem RemovesInputs.refl (gen : Generator) (id : BlockId) : gen.RemovesInputs id gen :=
  ⟨rfl, rfl, rfl, fun _ => rfl, fun _ => List.Subset.refl _, fun _ _ _ inside => inside⟩

theorem RemovesInputs.trans (first : gen.RemovesInputs id middle)
    (second : middle.RemovesInputs id after) : gen.RemovesInputs id after where
  nodes := second.nodes.trans first.nodes
  length := second.length.trans first.length
  entryBlock := second.entryBlock.trans first.entryBlock
  others := by
    intro other
    rw [second.others other, first.others other]
  fewer := fun other => List.Subset.trans (second.fewer other) (first.fewer other)
  inEdges := fun other source apart inside =>
    second.inEdges other source apart (first.inEdges other source apart inside)

theorem removesInputs_basicBlockRemoveInput (gen : Generator) (block id : BlockId) :
    gen.RemovesInputs id (gen.basicBlockRemoveInput block id) := by
  by_cases isBlock : block < gen.basicBlocks.length
  · have blocks : ∀ other, (gen.basicBlockRemoveInput block id).block other =
        if other = block then
          { gen.block block with inEdges := (gen.block block).inEdges.erase id }
        else gen.block other := block_modifyBlock isBlock _
    refine ⟨rfl, length_modifyBlock _ _ _, rfl, ?_, ?_, ?_⟩
    · intro other
      rw [blocks]
      split
      next same => rw [same]
      next => rfl
    · intro other
      rw [blocks]
      split
      next same =>
        rw [same]
        exact List.erase_subset
      next => exact List.Subset.refl _
    · intro other source apart inside
      rw [blocks]
      split
      next same =>
        rw [same] at inside
        exact (List.mem_erase_of_ne apart).mpr inside
      next => exact inside
  · have unchanged : gen.basicBlockRemoveInput block id = gen := by
      rw [basicBlockRemoveInput, modifyBlock, List.modify_eq_self (Nat.not_lt.mp isBlock)]
    rw [unchanged]
    exact .refl gen id

theorem removesInputs_foldl (gen : Generator) (id : BlockId) (blocks : List BlockId) :
    gen.RemovesInputs id
      (blocks.foldl (fun gen out => gen.basicBlockRemoveInput out id) gen) := by
  induction blocks generalizing gen with
  | nil => exact .refl gen id
  | cons block rest ih => exact (gen.removesInputs_basicBlockRemoveInput block id).trans (ih _)

/-- What `BasicBlockClear` does to a block. -/
structure Clears (gen : Generator) (id : BlockId) (after : Generator) : Prop where
  length : after.basicBlocks.length = gen.basicBlocks.length
  entryBlock : after.entryBlock = gen.entryBlock
  answers : after.answers = gen.answers
  outEdges : ∀ other, (after.block other).outEdges = (gen.block other).outEdges
  fewer : ∀ other, (after.block other).inEdges ⊆ (gen.block other).inEdges
  inEdges : ∀ other source, source ≠ id → source ∈ (gen.block other).inEdges →
    source ∈ (after.block other).inEdges
  instructions : (after.block id).instructions =
    (gen.block id).instructions.filter fun inst => gen.isNamedLabel inst
  others : ∀ other, other ≠ id → (after.block other).instructions = (gen.block other).instructions
  opcode : ∀ inst, (after.nodes inst).opcode = (gen.nodes inst).opcode
  inputs : ∀ inst operand, (operand ∈ (gen.block id).instructions → gen.isNamedLabel operand) →
    operand ∈ (gen.nodes inst).inputs → operand ∈ (after.nodes inst).inputs

theorem clears_basicBlockClear (gen : Generator) (isBlock : id < gen.basicBlocks.length) :
    gen.Clears id (gen.basicBlockClear id) := by
  rw [basicBlockClear]
  split
  next empty =>
    refine ⟨rfl, rfl, rfl, fun _ => rfl, fun _ => List.Subset.refl _, fun _ _ _ inside => inside,
      ?_, fun _ _ => rfl, fun _ => rfl, fun _ _ _ inside => inside⟩
    rw [empty]
    rfl
  next =>
    dsimp only
    generalize isRemoved : (gen.block id).instructions.filter
      (fun inst => !gen.isNamedLabel inst) = removed
    generalize isKept : (gen.block id).instructions.filter
      (fun inst => gen.isNamedLabel inst) = kept
    have nodes : gen.RemovesNodes (· ∈ removed) (removed.foldl irRemoveNode gen) := by
      apply RemovesNodes.foldl
      intro gen inst inside
      exact gen.removesNodes_irRemoveNode inside
    generalize removed.foldl irRemoveNode gen = unlinked at nodes ⊢
    have sameBlock : unlinked.block = gen.block := by
      funext other
      rw [block, block, nodes.basicBlocks]
    have blocks : ∀ other, (unlinked.modifyBlock id fun data =>
        { data with instructions := kept }).block other =
          if other = id then { gen.block id with instructions := kept } else gen.block other := by
      intro other
      rw [block_modifyBlock (nodes.basicBlocks ▸ isBlock), sameBlock]
    have emptiedNodes : (unlinked.modifyBlock id fun data =>
        { data with instructions := kept }).nodes = unlinked.nodes := rfl
    have emptiedLength : (unlinked.modifyBlock id fun data =>
        { data with instructions := kept }).basicBlocks.length = gen.basicBlocks.length := by
      rw [length_modifyBlock, nodes.basicBlocks]
    have emptiedEntry : (unlinked.modifyBlock id fun data =>
        { data with instructions := kept }).entryBlock = gen.entryBlock := nodes.entryBlock
    generalize (unlinked.modifyBlock id fun data =>
      { data with instructions := kept }) = emptied at blocks emptiedNodes emptiedLength emptiedEntry ⊢
    have inputs := removesInputs_foldl emptied id (emptied.block id).outEdges
    generalize (emptied.block id).outEdges.foldl
      (fun gen out => gen.basicBlockRemoveInput out id) emptied = after at inputs ⊢
    have fields : ∀ other, after.block other =
        { gen.block other with
          instructions := if other = id then kept else (gen.block other).instructions
          inEdges := (after.block other).inEdges } := by
      intro other
      rw [inputs.others other, blocks]
      split
      next same => rw [same]
      next => rfl
    have inEdges : ∀ other, (emptied.block other).inEdges = (gen.block other).inEdges := by
      intro other
      rw [blocks]
      split
      next same => rw [same]
      next => rfl
    constructor
    · exact inputs.length.trans emptiedLength
    · exact inputs.entryBlock.trans emptiedEntry
    · rw [answers, answers]
      congr 1
      · funext other
        rw [fields]
      · funext other
        rw [fields]
    · intro other
      rw [fields]
    · intro other
      rw [← inEdges]
      exact inputs.fewer other
    · intro other source apart inside
      rw [← inEdges] at inside
      exact inputs.inEdges other source apart inside
    · rw [fields, isKept]
      exact if_pos rfl
    · intro other apart
      rw [fields]
      exact if_neg apart
    · intro inst
      rw [inputs.nodes, emptiedNodes]
      exact nodes.opcode inst
    · intro inst operand isNamed inside
      rw [inputs.nodes, emptiedNodes]
      apply nodes.inputs inst operand _ inside
      intro isGone
      rw [← isRemoved, List.mem_filter] at isGone
      rw [isNamed isGone.1] at isGone
      cases isGone.2

end Generator

end DaveCC.Backend
