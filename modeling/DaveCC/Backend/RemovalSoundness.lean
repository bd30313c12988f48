import DaveCC.Backend.BlockRemoval

/-!
# `RemoveUnreachableBlocks` with right answers

When the recorded answers are consistent, the blocks that are cleared are those that neither
the entry nor an exception label reaches.
-/

namespace DaveCC.Backend

open DaveCC.Graph DaveCC.Loop ControlFlowGraph

variable {graph : ControlFlowGraph} {gen : Generator} {answers : Answers BlockId}
  {keep : Finset BlockId} {front : List BlockId} {now : Generator} {fuel : Nat} {id : BlockId}

namespace Generator

theorem lt_of_mem_inEdges {predecessor : BlockId} (isIn : predecessor ∈ (gen.block id).inEdges) :
    id < gen.basicBlocks.length := by
  by_contra outOfRange
  rw [block_of_length_le (Nat.not_lt.mp outOfRange)] at isIn
  cases isIn

/-- Blocks that differ in their answers only. -/
theorem fields_withAnswers (gen : Generator) (answers : Answers BlockId) (id : BlockId) :
    ((gen.withAnswers answers).block id).inEdges = (gen.block id).inEdges ∧
      ((gen.withAnswers answers).block id).outEdges = (gen.block id).outEdges ∧
      ((gen.withAnswers answers).block id).instructions = (gen.block id).instructions := by
  by_cases isBlock : id < gen.basicBlocks.length
  · rw [block_withAnswers isBlock]
    exact ⟨rfl, rfl, rfl⟩
  · have outOfRange := Nat.not_lt.mp isBlock
    rw [block_of_length_le outOfRange, block_of_length_le (by rwa [length_withAnswers])]
    exact ⟨rfl, rfl, rfl⟩

theorem edgesInRange_withAnswers (inRange : gen.EdgesInRange) :
    (gen.withAnswers answers).EdgesInRange := by
  intro id isBlock predecessor isIn
  rw [length_withAnswers] at isBlock ⊢
  rw [(gen.fields_withAnswers answers id).1] at isIn
  exact inRange id isBlock predecessor isIn

/-- The answers that are put in the blocks are consistent there. -/
theorem consistent_withAnswers {reachable : BlockId → Prop} (inRange : gen.EdgesInRange)
    (consistent : (gen.predecessorGraph inRange).Consistent reachable answers) :
    ((gen.withAnswers answers).predecessorGraph (edgesInRange_withAnswers inRange)).Consistent
      reachable (gen.withAnswers answers).answers := by
  apply consistent.of_subset
  · exact congrArg Finset.range length_withAnswers
  · rfl
  · intro target source isIn
    have isIn : source ∈ ((gen.withAnswers answers).block target).inEdges := isIn
    rw [(gen.fields_withAnswers answers target).1] at isIn
    have isBlock := lt_of_mem_inEdges isIn
    exact ⟨isIn, Finset.mem_range.mpr (inRange target isBlock source isIn),
      Finset.mem_range.mpr isBlock⟩
  · intro id isBlock
    have isRecorded : (gen.withAnswers answers).block id = gen.recorded answers id :=
      block_withAnswers (Finset.mem_range.mp isBlock)
    dsimp only [Generator.answers]
    rw [isRecorded]
    exact ⟨rfl, rfl⟩

end Generator

/-- Neither the entry nor a label reaches the block. -/
def ControlFlowGraph.Discarded (graph : ControlFlowGraph) (keep : Finset BlockId) (id : BlockId) :
    Prop :=
  ¬ graph.Reachable id ∧ id ∉ keep

/-- The blocks of the front are examined. -/
structure Removing (graph : ControlFlowGraph) (keep : Finset BlockId) (front : List BlockId)
    (now : Generator) : Prop where
  length : now.basicBlocks.length = graph.size
  entryBlock : now.entryBlock = graph.entry
  outEdges : ∀ id, (now.block id).outEdges = (graph.gen.block id).outEdges
  fewer : ∀ id, (now.block id).inEdges ⊆ (graph.gen.block id).inEdges
  inEdges : ∀ id source, graph.Reachable source → source ∈ (graph.gen.block id).inEdges →
    source ∈ (now.block id).inEdges
  opcode : ∀ inst, (now.nodes inst).opcode = (graph.gen.nodes inst).opcode
  cleared : ∀ id ∈ front, graph.Discarded keep id → (now.block id).instructions =
    (graph.gen.block id).instructions.filter fun inst => graph.gen.isNamedLabel inst
  kept : ∀ id, ¬ (id ∈ front ∧ graph.Discarded keep id) →
    (now.block id).instructions = (graph.gen.block id).instructions
  inputs : ∀ inst operand,
    (∀ id ∈ front, graph.Discarded keep id → operand ∈ (graph.gen.block id).instructions →
      graph.gen.isNamedLabel operand) →
    operand ∈ (graph.gen.nodes inst).inputs → operand ∈ (now.nodes inst).inputs
  consistent : ∀ inRange : now.EdgesInRange,
    (now.predecessorGraph inRange).Consistent graph.Reachable now.answers

theorem Removing.start
    (consistent : ∀ inRange : graph.gen.EdgesInRange,
      (graph.gen.predecessorGraph inRange).Consistent graph.Reachable graph.gen.answers) :
    Removing graph keep [] graph.gen where
  length := rfl
  entryBlock := rfl
  outEdges := fun _ => rfl
  fewer := fun _ => List.Subset.refl _
  inEdges := fun _ _ _ isIn => isIn
  opcode := fun _ => rfl
  cleared := fun _ inside => absurd inside List.not_mem_nil
  kept := fun _ _ => rfl
  inputs := fun _ _ _ isIn => isIn
  consistent := consistent

section

variable (removing : Removing graph keep front now)

include removing

theorem Removing.edgesInRange : now.EdgesInRange := by
  intro id _ predecessor isIn
  rw [removing.length]
  exact source_lt (edge_iff_mem_inEdges.mpr (removing.fewer id isIn))

/-- The in edges that are left decide about reachability. -/
theorem Removing.determines :
    (now.predecessorGraph removing.edgesInRange).Determines graph.Reachable where
  entry := by
    have root : graph.Reachable graph.entry := Reachable.root
    rw [← removing.entryBlock] at root
    exact root
  predecessor := by
    intro id _ notEntry
    constructor
    · intro reached
      have notRoot : id ≠ graph.entry := by
        rw [← removing.entryBlock]
        exact notEntry
      rcases reached.exists_predecessor notRoot with ⟨predecessor, follows, source⟩
      refine ⟨predecessor, ?_, source⟩
      exact removing.inEdges id predecessor source (edge_iff_mem_inEdges.mp follows)
    · intro found
      rcases found with ⟨predecessor, isIn, reached⟩
      exact reached.step (edge_iff_mem_inEdges.mpr (removing.fewer id isIn))

open Generator

/-- Other answers in the blocks. -/
theorem Removing.withAnswers
    (consistent : (now.predecessorGraph removing.edgesInRange).Consistent graph.Reachable answers) :
    Removing graph keep front (now.withAnswers answers) where
  length := length_withAnswers.trans removing.length
  entryBlock := removing.entryBlock
  outEdges := by
    intro id
    rw [(now.fields_withAnswers answers id).2.1]
    exact removing.outEdges id
  fewer := by
    intro id
    rw [(now.fields_withAnswers answers id).1]
    exact removing.fewer id
  inEdges := by
    intro id source reached isIn
    rw [(now.fields_withAnswers answers id).1]
    exact removing.inEdges id source reached isIn
  opcode := removing.opcode
  cleared := by
    intro id inside discarded
    rw [(now.fields_withAnswers answers id).2.2]
    exact removing.cleared id inside discarded
  kept := by
    intro id stays
    rw [(now.fields_withAnswers answers id).2.2]
    exact removing.kept id stays
  inputs := removing.inputs
  consistent := fun _ => consistent_withAnswers removing.edgesInRange consistent

/-- `BasicBlockIsUnreachable` answers rightly. -/
theorem Removing.ask (isBlock : id < graph.size) (enough : graph.size ≤ fuel) :
    ∃ answer next, now.basicBlockIsUnreachable fuel id = some (answer, next) ∧
      (answer = true ↔ ¬ graph.Reachable id) ∧ Removing graph keep front next := by
  have inRange := removing.edgesInRange
  have consistent := removing.consistent inRange
  have isNode : id ∈ (now.predecessorGraph inRange).nodes :=
    Finset.mem_range.mpr (removing.length ▸ isBlock)
  have bounded : (now.answers.unknown (now.predecessorGraph inRange).nodes).card ≤ fuel := by
    apply (Finset.card_filter_le _ _).trans
    rw [predecessorGraph, Finset.card_range, removing.length]
    exact enough
  rcases consistent.searching.asksRightly removing.determines consistent isNode
    (fun _ waiting inside => absurd inside List.not_mem_nil) bounded with
    ⟨answer, next, asked, isRight, during, _⟩
  refine ⟨answer, now.withAnswers next, ?_, isRight,
    removing.withAnswers (during.consistent consistent)⟩
  have searched : (now.withAnswers now.answers).basicBlockIsUnreachable fuel id = _ :=
    isUnreachable_withAnswers inRange (removing.length ▸ isBlock)
  rw [withAnswers_answers, asked] at searched
  exact searched

theorem Removing.skip (stays : ¬ graph.Discarded keep id) :
    Removing graph keep (front ++ [id]) now where
  length := removing.length
  entryBlock := removing.entryBlock
  outEdges := removing.outEdges
  fewer := removing.fewer
  inEdges := removing.inEdges
  opcode := removing.opcode
  cleared := by
    intro other inside discarded
    cases List.mem_append.mp inside with
    | inl before => exact removing.cleared other before discarded
    | inr last => exact absurd (List.mem_singleton.mp last ▸ discarded) stays
  kept := fun other outside =>
    removing.kept other fun inside => outside ⟨List.mem_append_left _ inside.1, inside.2⟩
  inputs := fun inst operand isKept =>
    removing.inputs inst operand fun other inside =>
      isKept other (List.mem_append_left _ inside)
  consistent := removing.consistent

theorem Removing.clear (isNew : id ∉ front) (isBlock : id < graph.size)
    (discarded : graph.Discarded keep id) :
    Removing graph keep (front ++ [id]) (now.basicBlockClear id) := by
  have clears := now.clears_basicBlockClear (removing.length ▸ isBlock)
  have isNamed : ∀ inst, now.isNamedLabel inst = graph.gen.isNamedLabel inst := by
    intro inst
    rw [isNamedLabel, isNamedLabel, removing.opcode]
  have before := removing.kept id fun inside => isNew inside.1
  constructor
  · exact clears.length.trans removing.length
  · exact clears.entryBlock.trans removing.entryBlock
  · exact fun other => (clears.outEdges other).trans (removing.outEdges other)
  · exact fun other => List.Subset.trans (clears.fewer other) (removing.fewer other)
  · intro other source reached isIn
    apply clears.inEdges other source
    · intro same
      exact discarded.1 (same ▸ reached)
    · exact removing.inEdges other source reached isIn
  · exact fun inst => (clears.opcode inst).trans (removing.opcode inst)
  · intro other inside isDiscarded
    by_cases same : other = id
    · rw [same, clears.instructions, before]
      simp only [isNamed]
    · rw [clears.others other same]
      apply removing.cleared other _ isDiscarded
      exact (List.mem_append.mp inside).resolve_right fun last => same (List.mem_singleton.mp last)
  · intro other stays
    have apart : other ≠ id := by
      intro same
      rw [same] at stays
      exact stays ⟨List.mem_append_right _ (List.mem_singleton_self id), discarded⟩
    rw [clears.others other apart]
    exact removing.kept other fun inside => stays ⟨List.mem_append_left _ inside.1, inside.2⟩
  · intro inst operand isKept inside
    apply clears.inputs inst operand
    · intro isIn
      rw [before] at isIn
      rw [isNamed]
      exact isKept id (List.mem_append_right _ (List.mem_singleton_self id)) discarded isIn
    · apply removing.inputs inst operand _ inside
      exact fun other isFront => isKept other (List.mem_append_left _ isFront)
  · intro inRange
    have nowInRange := removing.edgesInRange
    rw [clears.answers]
    apply (removing.consistent nowInRange).of_subset
    · exact congrArg Finset.range clears.length
    · exact clears.entryBlock
    · intro target source isIn
      have isIn : source ∈ (now.block target).inEdges := clears.fewer target isIn
      have targetIsBlock := lt_of_mem_inEdges isIn
      exact ⟨isIn, Finset.mem_range.mpr (nowInRange target targetIsBlock source isIn),
        Finset.mem_range.mpr targetIsBlock⟩
    · exact fun _ _ => ⟨rfl, rfl⟩

/-- The body of the last loop of `RemoveUnreachableBlocks`. -/
theorem Removing.clearUnreachable (isNew : id ∉ front) (isBlock : id < graph.size)
    (enough : graph.size ≤ fuel) :
    ∃ next, now.clearUnreachable fuel keep id = some next ∧
      Removing graph keep (front ++ [id]) next := by
  rcases removing.ask isBlock enough with ⟨answer, next, asked, isRight, after⟩
  rw [Generator.clearUnreachable, asked]
  by_cases discarded : graph.Discarded keep id
  · refine ⟨next.basicBlockClear id, ?_, after.clear isNew isBlock discarded⟩
    dsimp only [Option.bind_eq_bind, Option.bind_some]
    rw [if_pos]
    rw [Bool.and_eq_true, decide_eq_true_eq]
    exact ⟨isRight.mpr discarded.1, discarded.2⟩
  · refine ⟨next, ?_, after.skip discarded⟩
    dsimp only [Option.bind_eq_bind, Option.bind_some]
    rw [if_neg]
    rw [Bool.and_eq_true, decide_eq_true_eq]
    intro both
    exact discarded ⟨isRight.mp both.1, both.2⟩

end

variable {metadata : ExceptionMetadata}

/-- `RemoveUnreachableBlocks` examines every block, and keeps those of the exception labels. -/
theorem exists_removeUnreachableBlocks (consistent : ∀ inRange : graph.gen.EdgesInRange,
      (graph.gen.predecessorGraph inRange).Consistent graph.Reachable graph.gen.answers)
    (enough : graph.size ≤ fuel) (enoughLabels : graph.gen.labelsBound metadata ≤ fuel) :
    ∃ keep after, graph.gen.removeUnreachableBlocks fuel metadata = some after ∧
      (∀ id, id ∈ keep ↔ graph.gen.ReachedFromLabel metadata id) ∧
      Removing graph keep (List.range graph.size) after := by
  have loop : ∀ keep, ∃ after,
      (List.range graph.size).foldlM (Generator.clearUnreachable fuel keep) graph.gen =
        some after ∧ Removing graph keep (List.range graph.size) after := by
    intro keep
    apply exists_foldlM (Removing graph keep) _ (.start consistent)
    intro front id back now split removing
    have isBlock : id < graph.size := by
      rw [← List.mem_range, split]
      exact List.mem_append_right _ List.mem_cons_self
    apply removing.clearUnreachable _ isBlock enough
    have nodup := List.nodup_range (n := graph.size)
    rw [split] at nodup
    intro inside
    exact (List.nodup_append.mp nodup).2.2 id inside id List.mem_cons_self rfl
  rw [Generator.removeUnreachableBlocks]
  by_cases noLabels : metadata.ranges.length = 0 ∧ metadata.keepLabels.length = 0
  · rcases loop ∅ with ⟨after, returns, removing⟩
    refine ⟨∅, after, (if_pos noLabels).trans returns, ?_, removing⟩
    intro id
    refine iff_of_false (Finset.notMem_empty id) ?_
    intro reached
    rcases reached with ⟨root, isRoot, _⟩
    rw [ExceptionMetadata.roots, List.eq_nil_of_length_eq_zero noLabels.1,
      List.eq_nil_of_length_eq_zero noLabels.2] at isRoot
    exact List.not_mem_nil isRoot
  · rcases Generator.exists_exceptionReachable enoughLabels with ⟨keep, found, isKept⟩
    rcases loop keep with ⟨after, returns, removing⟩
    refine ⟨keep, after, ?_, isKept, removing⟩
    rw [if_neg noLabels, found]
    exact returns

/-! ## What the removal promises -/

namespace Generator

def branchLabel (gen : Generator) (inst : NodeId) : Option NodeId :=
  if (gen.nodes inst).opcode.isConditionalBranch then (gen.nodes inst).inputs[1]?
  else if (gen.nodes inst).opcode == .bra then (gen.nodes inst).inputs[0]?
  else none

/-- The blocks that are cleared are unreachable from the entry and from the exception labels.
A branch that stays, in a block with an edge to the block of its label, still has the label
as an operand, and the label is still there. -/
structure RemovesSafely (gen : Generator) (metadata : ExceptionMetadata) (after : Generator) :
    Prop where
  cleared : ∀ id, (after.block id).instructions ≠ (gen.block id).instructions →
    ¬ Graph.Reachable gen.Edge gen.entryBlock id ∧ ¬ gen.ReachedFromLabel metadata id
  labels : ∀ id, ∀ branch ∈ (after.block id).instructions, ∀ label,
    gen.branchLabel branch = some label →
    ∀ target, (∀ other, label ∈ (gen.block other).instructions ↔ other = target) →
      gen.Edge id target →
      label ∈ (after.block target).instructions ∧ label ∈ (after.nodes branch).inputs

theorem branchLabel_mem {inst label : NodeId} (isLabel : gen.branchLabel inst = some label) :
    label ∈ (gen.nodes inst).inputs ∧ gen.isNamedLabel inst = false := by
  rw [branchLabel] at isLabel
  rw [isNamedLabel]
  split at isLabel
  next isBranch =>
    refine ⟨List.mem_of_getElem? isLabel, ?_⟩
    rw [beq_eq_false_iff_ne]
    intro same
    rw [same] at isBranch
    cases isBranch
  next =>
    split at isLabel
    next isBranch =>
      refine ⟨List.mem_of_getElem? isLabel, ?_⟩
      rw [beq_iff_eq.mp isBranch]
      rfl
    next => cases isLabel

end Generator

theorem Removing.removesSafely (removing : Removing graph keep (List.range graph.size) now)
    (isKept : ∀ id, id ∈ keep ↔ graph.gen.ReachedFromLabel metadata id) :
    graph.gen.RemovesSafely metadata now where
  cleared := by
    intro id changed
    by_contra stays
    apply changed
    apply removing.kept
    intro inside
    exact stays ⟨inside.2.1, fun reached => inside.2.2 ((isKept id).mpr reached)⟩
  labels := by
    intro id branch inside label isLabel target isTarget follows
    have facts := Generator.branchLabel_mem isLabel
    have inRange := List.mem_range.mpr (ControlFlowGraph.source_lt follows)
    have stays : ¬ graph.Discarded keep id := by
      intro discarded
      rw [removing.cleared id inRange discarded, List.mem_filter, facts.2] at inside
      cases inside.2
    have targetStays : ¬ graph.Discarded keep target := by
      intro discarded
      apply stays
      constructor
      · intro reached
        exact discarded.1 (reached.step follows)
      · intro kept
        rcases (isKept id).mp kept with ⟨root, isRoot, path⟩
        exact discarded.2 ((isKept target).mpr ⟨root, isRoot, path.tail follows⟩)
    constructor
    · rw [removing.kept target fun inside => targetStays inside.2]
      exact (isTarget target).mpr rfl
    · apply removing.inputs branch label _ facts.1
      intro other _ discarded isIn
      rw [(isTarget other).mp isIn] at discarded
      exact absurd discarded targetStays

end DaveCC.Backend
