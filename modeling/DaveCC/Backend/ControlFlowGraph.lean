import DaveCC.Backend.ControlFlow
import DaveCC.Graph.DominatorTree

/-!
# Control-flow graphs

The graph of a generator's blocks. `BasicBlockAddEdge` records an edge at both of its
ends, so the two edge lists agree; a `ControlFlowGraph` carries that fact, and building
one edge by edge keeps it.
-/

namespace DaveCC.Backend

open DaveCC.Graph

namespace Generator

/-- There is an edge between the blocks. -/
def Edge (gen : Generator) (source target : BlockId) : Prop :=
  target ∈ (gen.block source).outEdges

variable {gen : Generator}

theorem block_eq_getElem {id : BlockId} (inRange : id < gen.basicBlocks.length) :
    gen.block id = gen.basicBlocks[id] := by
  simp only [block, List.getD_eq_getElem?_getD, List.getElem?_eq_getElem inRange, Option.getD_some]

theorem block_of_length_le {id : BlockId} (outOfRange : gen.basicBlocks.length ≤ id) :
    gen.block id = {} := by
  simp only [block, List.getD_eq_getElem?_getD, List.getElem?_eq_none outOfRange, Option.getD_none]

@[simp] theorem length_modifyBlock (gen : Generator) (id : BlockId)
    (change : BasicBlock → BasicBlock) :
    (gen.modifyBlock id change).basicBlocks.length = gen.basicBlocks.length := by
  simp [modifyBlock]

@[simp] theorem entryBlock_modifyBlock (gen : Generator) (id : BlockId)
    (change : BasicBlock → BasicBlock) :
    (gen.modifyBlock id change).entryBlock = gen.entryBlock := rfl

theorem block_modifyBlock {id : BlockId} (inRange : id < gen.basicBlocks.length)
    (change : BasicBlock → BasicBlock) (other : BlockId) :
    (gen.modifyBlock id change).block other =
      if other = id then change (gen.block id) else gen.block other := by
  simp only [block, modifyBlock, List.getD_eq_getElem?_getD, List.getElem?_modify]
  by_cases same : other = id
  · subst same
    simp [List.getElem?_eq_getElem inRange]
  · simp [same, Ne.symm same]

end Generator

/-- A generator whose blocks form a graph with an entry: every edge is recorded at
both ends. Edges may be doubled, and blocks may be unreachable. -/
structure ControlFlowGraph where
  gen : Generator
  entry_lt : gen.entryBlock < gen.basicBlocks.length
  mem_inEdges_iff : ∀ source target,
    source ∈ (gen.block target).inEdges ↔ target ∈ (gen.block source).outEdges

namespace ControlFlowGraph

variable (graph : ControlFlowGraph)

/-- The number of blocks. -/
abbrev size : Nat := graph.gen.basicBlocks.length

abbrev entry : BlockId := graph.gen.entryBlock

abbrev Reachable (id : BlockId) : Prop := Graph.Reachable graph.gen.Edge graph.entry id

abbrev Dominates (dominator id : BlockId) : Prop :=
  Graph.Dominates graph.gen.Edge graph.entry dominator id

abbrev StrictlyDominates (dominator id : BlockId) : Prop :=
  Graph.StrictlyDominates graph.gen.Edge graph.entry dominator id

abbrev ImmediatelyDominates (dominator id : BlockId) : Prop :=
  Graph.ImmediatelyDominates graph.gen.Edge graph.entry dominator id

variable {graph} {source target id : BlockId}

theorem edge_iff_mem_inEdges :
    graph.gen.Edge source target ↔ source ∈ (graph.gen.block target).inEdges :=
  (graph.mem_inEdges_iff source target).symm

open Generator

/-- A block with an out edge is a block of the function. -/
theorem source_lt (follows : graph.gen.Edge source target) : source < graph.size := by
  by_contra outOfRange
  rw [Generator.Edge, block_of_length_le (Nat.not_lt.mp outOfRange)] at follows
  cases follows

theorem target_lt (follows : graph.gen.Edge source target) : target < graph.size := by
  by_contra outOfRange
  rw [edge_iff_mem_inEdges, block_of_length_le (Nat.not_lt.mp outOfRange)] at follows
  cases follows

theorem lt_of_reachable (reached : graph.Reachable id) : id < graph.size := by
  refine Graph.Reachable.induct (· < graph.size) graph.entry_lt ?_ reached
  intro _ _ _ _ follows
  exact target_lt follows

theorem lt_of_dominates {dominator : BlockId} (dominates : graph.Dominates dominator id) :
    dominator < graph.size :=
  lt_of_reachable dominates.reachable

/-- A function whose blocks have no edges yet. -/
def ofBlocks (gen : Generator) (entry_lt : gen.entryBlock < gen.basicBlocks.length)
    (noEdges : ∀ id, (gen.block id).inEdges = [] ∧ (gen.block id).outEdges = []) :
    ControlFlowGraph where
  gen := gen
  entry_lt := entry_lt
  mem_inEdges_iff := by
    intro source target
    rw [(noEdges target).1, (noEdges source).2]
    constructor <;> intro member <;> cases member

theorem inEdges_basicBlockAddEdge (gen : Generator) {source target : BlockId}
    (sourceInRange : source < gen.basicBlocks.length)
    (targetInRange : target < gen.basicBlocks.length) (id : BlockId) :
    ((gen.basicBlockAddEdge source target).block id).inEdges =
      if id = target then (gen.block id).inEdges ++ [source] else (gen.block id).inEdges := by
  simp only [basicBlockAddEdge, basicBlockAddInEdge, length_modifyBlock, block_modifyBlock,
    sourceInRange, targetInRange, apply_ite BasicBlock.inEdges]
  split_ifs <;> subst_vars <;> first | rfl | contradiction

theorem outEdges_basicBlockAddEdge (gen : Generator) {source target : BlockId}
    (sourceInRange : source < gen.basicBlocks.length)
    (targetInRange : target < gen.basicBlocks.length) (id : BlockId) :
    ((gen.basicBlockAddEdge source target).block id).outEdges =
      if id = source then (gen.block id).outEdges ++ [target]
      else (gen.block id).outEdges := by
  simp only [basicBlockAddEdge, basicBlockAddInEdge, length_modifyBlock, block_modifyBlock,
    sourceInRange, targetInRange, apply_ite BasicBlock.outEdges]
  split_ifs <;> subst_vars <;> first | rfl | contradiction

/-- `BasicBlockAddEdge` on a graph is again a graph. -/
def addEdge (graph : ControlFlowGraph) (source target : BlockId)
    (sourceInRange : source < graph.size) (targetInRange : target < graph.size) :
    ControlFlowGraph where
  gen := graph.gen.basicBlockAddEdge source target
  entry_lt := by
    simpa [basicBlockAddEdge, basicBlockAddInEdge] using graph.entry_lt
  mem_inEdges_iff := by
    intro first second
    rw [inEdges_basicBlockAddEdge graph.gen sourceInRange targetInRange,
      outEdges_basicBlockAddEdge graph.gen sourceInRange targetInRange]
    have agree := graph.mem_inEdges_iff first second
    split_ifs with atTarget atSource atSource
    · subst atTarget atSource
      simp [agree]
    · simp [agree, atSource]
    · simp [agree, atTarget]
    · exact agree

end ControlFlowGraph

end DaveCC.Backend
