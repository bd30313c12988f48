import DaveCC.Backend.AnalyzeCFG
import DaveCC.Backend.RemovalSoundness
import DaveCC.Graph.EdgeInverse

/-!
# Edges that change after the analysis

`BasicBlockAddEdge` and `BasicBlockRemoveEdge` make some blocks forget whether they are known,
but not their answers, and not those of the blocks behind them. The answers stay right exactly
when no block came back to life, every block that died was forgotten, and none of those is on
a cycle of forgotten blocks.
-/

namespace DaveCC.Backend

open DaveCC.Graph DaveCC.Loop Relation Generator ControlFlowGraph

/-- Every edge is recorded as often at both ends. -/
def Generator.Balanced (gen : Generator) : Prop :=
  EdgeInverse (fun id => (gen.block id).inEdges) (fun id => (gen.block id).outEdges)

/-- A graph in which every edge is recorded as often at both ends. -/
structure BalancedGraph where
  gen : Generator
  entry_lt : gen.entryBlock < gen.basicBlocks.length
  balanced : gen.Balanced

/-- A change of the edges between the blocks of a function. -/
inductive EdgeEdit (size : Nat) where
  | add (source target : Fin size)
  | remove (source target : Fin size)

namespace EdgeEdit

variable {size : Nat}

def apply (gen : Generator) : EdgeEdit size → Generator
  | add source target => gen.basicBlockAddEdge source target
  | remove source target => gen.basicBlockRemoveEdge source target

/-- The blocks that an edit makes unknown. -/
def touches (id : BlockId) : EdgeEdit size → Prop
  | add source target => id = source ∨ id = target
  | remove _ target => id = target

end EdgeEdit

namespace BalancedGraph

/-- The graph without the counts. -/
def toGraph (graph : BalancedGraph) : ControlFlowGraph where
  gen := graph.gen
  entry_lt := graph.entry_lt
  mem_inEdges_iff := fun _ _ => graph.balanced.mem_iff

abbrev size (graph : BalancedGraph) : Nat := graph.gen.basicBlocks.length

end BalancedGraph

/-- A history of edits. -/
abbrev EdgeHistory (size : Nat) := List (EdgeEdit size)

namespace EdgeHistory

variable {size : Nat}

def apply (gen : Generator) (history : EdgeHistory size) : Generator :=
  history.foldl EdgeEdit.apply gen

def Touches (history : EdgeHistory size) (id : BlockId) : Prop :=
  ∃ edit ∈ history, edit.touches id

end EdgeHistory

variable {gen middle after : Generator} {source target id : BlockId}

theorem Generator.block_modifyBlock_at (inRange : id < gen.basicBlocks.length)
    (change : BasicBlock → BasicBlock) (other : BlockId) :
    (gen.modifyBlock id change).block other =
      if other = id then change (gen.block other) else gen.block other := by
  rw [block_modifyBlock inRange]
  split
  next same => rw [same]
  next => rfl

theorem block_basicBlockAddEdge (sourceInRange : source < gen.basicBlocks.length)
    (targetInRange : target < gen.basicBlocks.length) (id : BlockId) :
    (gen.basicBlockAddEdge source target).block id =
      { gen.block id with
        inEdges := if id = target then (gen.block id).inEdges ++ [source]
          else (gen.block id).inEdges
        outEdges := if id = source then (gen.block id).outEdges ++ [target]
          else (gen.block id).outEdges
        reachabilityKnown := if id = source ∨ id = target then false
          else (gen.block id).reachabilityKnown } := by
  simp only [basicBlockAddEdge, basicBlockAddInEdge,
    length_modifyBlock, block_modifyBlock_at, sourceInRange, targetInRange]
  by_cases isSource : id = source
  · by_cases isTarget : id = target
    · simp only [eq_true isSource, eq_true isTarget, if_true, true_or]
    · simp only [eq_true isSource, eq_false isTarget, if_true, if_false, true_or]
  · by_cases isTarget : id = target
    · simp only [eq_false isSource, eq_true isTarget, if_true, if_false, or_true]
    · simp only [eq_false isSource, eq_false isTarget, if_false, or_false]

theorem block_basicBlockRemoveEdge (sourceInRange : source < gen.basicBlocks.length)
    (targetInRange : target < gen.basicBlocks.length) (id : BlockId) :
    (gen.basicBlockRemoveEdge source target).block id =
      { gen.block id with
        inEdges := if id = target then (gen.block id).inEdges.erase source
          else (gen.block id).inEdges
        outEdges := if id = source then (gen.block id).outEdges.erase target
          else (gen.block id).outEdges
        reachabilityKnown := if id = target then false
          else (gen.block id).reachabilityKnown } := by
  simp only [basicBlockRemoveEdge, basicBlockRemoveInput,
    length_modifyBlock, block_modifyBlock_at, sourceInRange, targetInRange]
  by_cases isSource : id = source
  · by_cases isTarget : id = target
    · simp only [eq_true isSource, eq_true isTarget, if_true]
    · simp only [eq_true isSource, eq_false isTarget, if_true, if_false]
  · by_cases isTarget : id = target
    · simp only [eq_false isSource, eq_true isTarget, if_true, if_false]
    · simp only [eq_false isSource, eq_false isTarget, if_false]

theorem balanced_basicBlockAddEdge (balanced : gen.Balanced)
    (sourceInRange : source < gen.basicBlocks.length)
    (targetInRange : target < gen.basicBlocks.length) :
    (gen.basicBlockAddEdge source target).Balanced := by
  intro user operand
  have before := balanced user operand
  simp only [block_basicBlockAddEdge sourceInRange targetInRange] at before ⊢
  grind

theorem balanced_basicBlockRemoveEdge (balanced : gen.Balanced)
    (sourceInRange : source < gen.basicBlocks.length)
    (targetInRange : target < gen.basicBlocks.length) :
    (gen.basicBlockRemoveEdge source target).Balanced := by
  intro user operand
  have before := balanced user operand
  simp only [block_basicBlockRemoveEdge sourceInRange targetInRange] at before ⊢
  grind

/-- Some edits keep the graph balanced, and make the blocks unknown that they touch. -/
structure Edited (touched : BlockId → Prop) (gen after : Generator) : Prop where
  length : after.basicBlocks.length = gen.basicBlocks.length
  entryBlock : after.entryBlock = gen.entryBlock
  balanced : gen.Balanced → after.Balanced
  known : ∀ id, (after.block id).reachabilityKnown = true ↔
    (gen.block id).reachabilityKnown = true ∧ ¬ touched id
  unreachable : ∀ id, (after.block id).isUnreachable = (gen.block id).isUnreachable

theorem EdgeEdit.edited {size : Nat} (edit : EdgeEdit size)
    (isSize : gen.basicBlocks.length = size) : Edited edit.touches gen (edit.apply gen) := by
  cases edit with
  | add source target =>
    have sourceInRange : source < gen.basicBlocks.length := isSize ▸ source.isLt
    have targetInRange : target < gen.basicBlocks.length := isSize ▸ target.isLt
    refine ⟨?_, rfl, ?_, ?_, ?_⟩
    · simp [apply, basicBlockAddEdge, basicBlockAddInEdge]
    · exact fun balanced => balanced_basicBlockAddEdge balanced sourceInRange targetInRange
    · intro id
      rw [apply, block_basicBlockAddEdge sourceInRange targetInRange, touches]
      grind
    · intro id
      rw [apply, block_basicBlockAddEdge sourceInRange targetInRange]
  | remove source target =>
    have sourceInRange : source < gen.basicBlocks.length := isSize ▸ source.isLt
    have targetInRange : target < gen.basicBlocks.length := isSize ▸ target.isLt
    refine ⟨?_, rfl, ?_, ?_, ?_⟩
    · simp [apply, basicBlockRemoveEdge, basicBlockRemoveInput]
    · exact fun balanced => balanced_basicBlockRemoveEdge balanced sourceInRange targetInRange
    · intro id
      rw [apply, block_basicBlockRemoveEdge sourceInRange targetInRange, touches]
      grind
    · intro id
      rw [apply, block_basicBlockRemoveEdge sourceInRange targetInRange]

theorem EdgeHistory.edited {size : Nat} (history : EdgeHistory size)
    (isSize : gen.basicBlocks.length = size) : Edited history.Touches gen (history.apply gen) := by
  induction history generalizing gen with
  | nil =>
    refine ⟨rfl, rfl, id, ?_, fun _ => rfl⟩
    intro id
    simp [apply, Touches]
  | cons edit rest ih =>
    have first := edit.edited isSize
    have later := ih (first.length.trans isSize)
    refine ⟨later.length.trans first.length, later.entryBlock.trans first.entryBlock,
      later.balanced ∘ first.balanced, ?_, ?_⟩
    · intro id
      have before := first.known id
      have after := later.known id
      simp only [Touches, List.mem_cons, exists_eq_or_imp] at after ⊢
      rw [show apply gen (edit :: rest) = apply (edit.apply gen) rest from rfl, after, before,
        and_assoc, not_or]
    · exact fun id => (later.unreachable id).trans (first.unreachable id)

/-! ## The answers after a history -/

/-- Some edges lead from the entry to the block. -/
def Generator.Reaches (gen : Generator) (id : BlockId) : Prop :=
  Graph.Reachable gen.Edge gen.entryBlock id

/-- `BasicBlockIsUnreachable` answers rightly, also when blocks are asked for again, and
`RemoveUnreachableBlocks` is safe. -/
structure RightAnswers (fuel : Nat) (metadata : ExceptionMetadata) (gen : Generator) : Prop where
  answers : ∀ ids : List BlockId, (∀ id ∈ ids, id < gen.basicBlocks.length) →
    ∃ results next, gen.areUnreachable fuel ids = some (results, next) ∧
      List.Forall₂ (fun id answer => answer = true ↔ ¬ gen.Reaches id) ids results
  removal : ∃ after, gen.removeUnreachableBlocks fuel metadata = some after ∧
    gen.RemovesSafely metadata after

/-- No block became reachable, every block that became unreachable was touched, and none of
those is on a cycle of touched blocks. -/
structure ReachabilityKept (before after : Generator) (touched : BlockId → Prop) : Prop where
  noneRevived : ∀ id, after.Reaches id → before.Reaches id
  forgotten : ∀ id, before.Reaches id → ¬ after.Reaches id → touched id
  acyclic : ∀ id, before.Reaches id → ¬ after.Reaches id →
    ¬ TransGen (fun source target => after.Edge source target ∧ touched source ∧ touched target)
      id id

/-- The blocks hold the answers of an analysis, but those that were touched since are unknown. -/
structure Analyzed (before : Generator) (touched : BlockId → Prop) (after : ControlFlowGraph) :
    Prop where
  entry : before.Reaches after.entry
  inRange : ∀ id, before.Reaches id → id < after.size
  known : ∀ id < after.size, (after.gen.block id).reachabilityKnown = true ↔ ¬ touched id
  unreachable : ∀ id < after.size, (after.gen.block id).isUnreachable = true ↔ ¬ before.Reaches id

variable {before : Generator} {touched : BlockId → Prop} {final : ControlFlowGraph}

theorem ControlFlowGraph.edgesInRange (graph : ControlFlowGraph) : graph.gen.EdgesInRange := by
  intro id _ predecessor isIn
  exact source_lt (edge_iff_mem_inEdges.mpr isIn)

section

variable (analyzed : Analyzed before touched final)

include analyzed

theorem Analyzed.unknown_iff (isBlock : id < final.size) :
    final.gen.answers.known id = false ↔ touched id := by
  have known : final.gen.answers.known id = true ↔ ¬ touched id := analyzed.known id isBlock
  rw [← Bool.not_eq_true, known, not_not]

theorem Analyzed.unrecorded_iff (isBlock : id < final.size) :
    final.gen.answers.unreachable id = false ↔ before.Reaches id := by
  have unreachable : final.gen.answers.unreachable id = true ↔ ¬ before.Reaches id :=
    analyzed.unreachable id isBlock
  rw [← Bool.not_eq_true, unreachable, not_not]

theorem Analyzed.openEdge_eq :
    (final.gen.predecessorGraph final.edgesInRange).OpenEdge final.gen.answers =
      fun source target => final.gen.Edge source target ∧ touched source ∧ touched target := by
  funext source target
  have isEdge : source ∈ (final.gen.predecessorGraph final.edgesInRange).predecessors target ↔
      final.gen.Edge source target := edge_iff_mem_inEdges.symm
  rw [PredecessorGraph.OpenEdge, isEdge, eq_iff_iff]
  apply and_congr_right
  intro follows
  rw [analyzed.unknown_iff (source_lt follows), analyzed.unknown_iff (target_lt follows)]

/-- The answers are consistent when reachability was kept. -/
theorem Analyzed.consistent_iff :
    (final.gen.predecessorGraph final.edgesInRange).Consistent final.Reachable final.gen.answers ↔
      ReachabilityKept before final.gen touched := by
  have isNode : ∀ id, id ∈ (final.gen.predecessorGraph final.edgesInRange).nodes ↔
      id < final.size := fun id => Finset.mem_range
  constructor
  · intro consistent
    have forgotten : ∀ id, before.Reaches id → ¬ final.gen.Reaches id → touched id := by
      intro id reached unreachable
      have isBlock := analyzed.inRange id reached
      have notEntry : id ≠ final.entry := by
        intro isEntry
        rw [isEntry] at unreachable
        exact unreachable Reachable.root
      by_contra untouched
      have isKnown : final.gen.answers.known id = true := (analyzed.known id isBlock).mpr untouched
      have recorded := (consistent.known id ((isNode id).mpr isBlock) notEntry isKnown).mpr
        unreachable
      rw [(analyzed.unrecorded_iff isBlock).mpr reached] at recorded
      cases recorded
    refine ⟨?_, forgotten, ?_⟩
    · intro id reached
      by_contra unreachable
      have isBlock := lt_of_reachable reached
      have notEntry : id ≠ final.entry := by
        intro isEntry
        rw [isEntry] at unreachable
        exact unreachable analyzed.entry
      exact consistent.recorded id ((isNode id).mpr isBlock) notEntry
        ((analyzed.unreachable id isBlock).mpr unreachable) reached
    · intro id reached unreachable
      have isBlock := analyzed.inRange id reached
      have notEntry : id ≠ final.entry := by
        intro isEntry
        rw [isEntry] at unreachable
        exact unreachable Reachable.root
      rw [← analyzed.openEdge_eq]
      exact consistent.acyclic id ((isNode id).mpr isBlock) notEntry unreachable
        ((analyzed.unknown_iff isBlock).mpr (forgotten id reached unreachable))
        ((analyzed.unrecorded_iff isBlock).mpr reached)
  · intro kept
    have recorded : ∀ id < final.size, final.gen.answers.unreachable id = true →
        ¬ final.gen.Reaches id := by
      intro id isBlock isRecorded reached
      exact (analyzed.unreachable id isBlock).mp isRecorded (kept.noneRevived id reached)
    refine ⟨?_, fun id isBlock _ => recorded id ((isNode id).mp isBlock), ?_⟩
    · intro id isBlock _ isKnown
      have inRange := (isNode id).mp isBlock
      refine ⟨recorded id inRange, ?_⟩
      intro unreachable
      apply (analyzed.unreachable id inRange).mpr
      intro reached
      exact (analyzed.known id inRange).mp isKnown (kept.forgotten id reached unreachable)
    · intro id isBlock _ unreachable _ unrecorded
      rw [analyzed.openEdge_eq]
      exact kept.acyclic id ((analyzed.unrecorded_iff ((isNode id).mp isBlock)).mp unrecorded)
        unreachable

end

variable {fuel : Nat}

theorem areUnreachable_eq (graph : ControlFlowGraph) {ids : List BlockId}
    (areBlocks : ∀ id ∈ ids, id < graph.size) :
    graph.gen.areUnreachable fuel ids =
      ((graph.gen.predecessorGraph graph.edgesInRange).askAll fuel graph.gen.answers ids).map
        fun found => (found.1, graph.gen.withAnswers found.2) := by
  have asked : (graph.gen.withAnswers graph.gen.answers).areUnreachable fuel ids = _ :=
    areUnreachable_withAnswers graph.edgesInRange areBlocks
  rw [withAnswers_answers] at asked
  exact asked

/-- Consistent answers are right, and right answers were consistent. -/
theorem rightAnswers_iff {metadata : ExceptionMetadata} (analyzed : Analyzed before touched final)
    (enough : final.size ≤ fuel) (enoughLabels : final.gen.labelsBound metadata ≤ fuel) :
    RightAnswers fuel metadata final.gen ↔ ReachabilityKept before final.gen touched := by
  rw [← analyzed.consistent_iff]
  have isNode : ∀ id, id ∈ (final.gen.predecessorGraph final.edgesInRange).nodes ↔
      id < final.size := fun id => Finset.mem_range
  constructor
  · intro right
    apply PredecessorGraph.consistent_of_answersRight
    intro ids areNodes
    have areBlocks : ∀ id ∈ ids, id < final.size :=
      fun id inside => (isNode id).mp (areNodes id inside)
    rcases right.answers ids areBlocks with ⟨results, next, returns, areRight⟩
    rw [areUnreachable_eq final areBlocks] at returns
    rcases Option.map_eq_some_iff.mp returns with ⟨found, asked, same⟩
    cases same
    exact ⟨found.1, found.2, asked, areRight⟩
  · intro consistent
    have removing : Removing final ∅ [] final.gen := .start fun _ => consistent
    refine ⟨?_, ?_⟩
    · intro ids areBlocks
      have bounded : (final.gen.predecessorGraph final.edgesInRange).nodes.card ≤ fuel := by
        rw [predecessorGraph, Finset.card_range]
        exact enough
      rcases consistent.answersRight removing.determines
        (fun id inside => (isNode id).mpr (areBlocks id inside)) bounded with
        ⟨results, next, asked, areRight⟩
      refine ⟨results, final.gen.withAnswers next, ?_, areRight⟩
      rw [areUnreachable_eq final areBlocks, asked]
      rfl
    · rcases exists_removeUnreachableBlocks (fun _ => consistent) enough enoughLabels with
        ⟨keep, after, returns, isKept, removed⟩
      exact ⟨after, returns, removed.removesSafely isKept⟩

namespace BalancedGraph

variable (graph : BalancedGraph) (history : EdgeHistory graph.size)

theorem length_analyzed : graph.toGraph.analyzed.basicBlocks.length = graph.size :=
  length_mapBlocks _ _

theorem balanced_analyzed : graph.toGraph.analyzed.Balanced := by
  intro user operand
  have unchanged := graph.toGraph.isExact_analyzed.unchanged
  dsimp only
  rw [(unchanged user).2.1, (unchanged operand).2.2]
  exact graph.balanced user operand

theorem edits :
    Edited history.Touches graph.toGraph.analyzed (history.apply graph.toGraph.analyzed) :=
  history.edited graph.length_analyzed

/-- The graph after an analysis and a history of edits. -/
noncomputable def edited : ControlFlowGraph :=
  toGraph
    { gen := history.apply graph.toGraph.analyzed
      entry_lt := by
        rw [(graph.edits history).length, (graph.edits history).entryBlock, graph.length_analyzed]
        exact graph.entry_lt
      balanced := (graph.edits history).balanced graph.balanced_analyzed }

theorem size_edited : (graph.edited history).size = graph.size :=
  (graph.edits history).length.trans graph.length_analyzed

/-- The history leaves the answers of the analysis in the blocks that it does not touch. -/
theorem analyzed_edited : Analyzed graph.gen history.Touches (graph.edited history) := by
  have edits := graph.edits history
  have entry : (graph.edited history).entry = graph.gen.entryBlock := edits.entryBlock
  constructor
  · rw [entry]
    exact Reachable.root
  · intro id reached
    rw [size_edited]
    have isBlock : id < graph.toGraph.size := lt_of_reachable reached
    exact isBlock
  · intro id isBlock
    rw [size_edited] at isBlock
    have known : (graph.toGraph.analyzed.block id).reachabilityKnown = true := by
      have analyzed := @ControlFlowGraph.block_analyzed graph.toGraph id isBlock
      rw [analyzed]
      rfl
    exact (edits.known id).trans (and_iff_right known)
  · intro id isBlock
    rw [size_edited] at isBlock
    have unreachable := graph.toGraph.isExact_analyzed.unreachable id isBlock
    rw [← edits.unreachable id] at unreachable
    exact unreachable

end BalancedGraph

/-- After an analysis and any edits the answers are right exactly when no block became
reachable, every block that became unreachable is the end of an added edge or the target of a
removed one, and none of those is on a cycle of such blocks. -/
theorem analyzeCFG_rightAnswers_iff (graph : BalancedGraph) (history : EdgeHistory graph.size)
    (metadata : ExceptionMetadata) :
    ∃ bound, ∀ fuel ≥ bound, ∃ analyzed, graph.gen.analyzeCFG fuel = some analyzed ∧
      (RightAnswers fuel metadata (history.apply analyzed) ↔
        ReachabilityKept graph.gen (history.apply analyzed) history.Touches) := by
  refine ⟨max graph.toGraph.analysisBound
    (max graph.size ((graph.edited history).gen.labelsBound metadata)), ?_⟩
  intro fuel enough
  have forAnswers := le_of_max_le_right enough
  refine ⟨graph.toGraph.analyzed, graph.toGraph.analyzeCFG_eq (le_of_max_le_left enough), ?_⟩
  apply rightAnswers_iff (graph.analyzed_edited history)
  · rw [graph.size_edited history]
    exact le_of_max_le_left forAnswers
  · exact le_of_max_le_right forAnswers

/-- Three blocks without edges. -/
def threeBlocks : Generator where
  nodes := fun _ => { opcode := .ret }
  basicBlocks := List.replicate 3 {}
  entryBlock := 0

theorem balanced_threeBlocks : threeBlocks.Balanced := by
  have noEdges : ∀ id, threeBlocks.block id = {} := by
    intro id
    rw [Generator.block, threeBlocks, List.getD_eq_getElem?_getD, List.getElem?_replicate]
    split <;> rfl
  intro user operand
  dsimp only
  rw [noEdges, noEdges]
  rfl

/-- The blocks 0, 1 and 2 in a row. -/
def chainOfThree : BalancedGraph where
  gen := (threeBlocks.basicBlockAddEdge 0 1).basicBlockAddEdge 1 2
  entry_lt := by decide
  balanced := by
    apply balanced_basicBlockAddEdge _ (by decide) (by decide)
    exact balanced_basicBlockAddEdge balanced_threeBlocks (by decide) (by decide)

/-- The block behind the one that the removed edge leads to is not forgotten. -/
theorem not_rightAnswers_removeEdge :
    ∃ analyzed, chainOfThree.gen.analyzeCFG 100 = some analyzed ∧
      ¬ RightAnswers 100 {} (EdgeHistory.apply analyzed
        ([.remove (0 : Fin 3) (1 : Fin 3)] : EdgeHistory 3)) := by
  have evaluated : (chainOfThree.gen.analyzeCFG 100).map (fun analyzed =>
      let edited := EdgeHistory.apply analyzed ([.remove (0 : Fin 3) (1 : Fin 3)] : EdgeHistory 3)
      (edited.basicBlocks.length, edited.entryBlock, (edited.block 0).outEdges,
        (edited.areUnreachable 100 [2]).map Prod.fst)) = some (3, 0, [], some [false]) := by
    decide +kernel
  rcases Option.map_eq_some_iff.mp evaluated with ⟨analyzed, returns, facts⟩
  refine ⟨analyzed, returns, ?_⟩
  intro right
  simp only [Prod.mk.injEq] at facts
  rcases facts with ⟨length, entry, noEdges, answered⟩
  rcases right.answers [2] (by simp [length]) with ⟨results, next, asked, areRight⟩
  rw [asked, Option.map_some, Option.some_inj] at answered
  subst answered
  cases areRight with
  | cons isRight _ =>
    have reached := not_not.mp fun unreachable => Bool.false_ne_true (isRight.mpr unreachable)
    have onlyEntry : (2 : BlockId) = 0 := by
      refine Reachable.induct (· = 0) entry ?_ reached
      intro source target _ isEntry follows
      rw [isEntry, Generator.Edge, noEdges] at follows
      cases follows
    exact absurd onlyEntry (by decide)

end DaveCC.Backend
