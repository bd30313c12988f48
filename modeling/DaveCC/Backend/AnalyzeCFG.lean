import DaveCC.Backend.CfgAnalysis

/-!
# The analysis of a control-flow graph is exact

`AnalyzeCFG` resets the blocks, calculates the dominators and their frontiers and builds the
dominator tree. Whatever the blocks held before, it returns, and every fact it records is
the one the graph determines.
-/

namespace DaveCC.Backend

open DaveCC.Graph DaveCC.Loop Generator

namespace ControlFlowGraph

variable {graph : ControlFlowGraph} {id : BlockId} {fuel : Nat}

theorem buildDominatorTree_eq (fresh : ∀ id, (graph.gen.block id).dominatees = []) :
    (graph.withFrontier graph.frontierSet).buildDominatorTree = graph.analyzed := by
  let recorded : List BlockId → Generator := fun done =>
    graph.gen.mapBlocks fun id =>
      { graph.withDominators id with
        dominatees := done.filter fun child => graph.immediateDominator child == some id
        dominanceFrontier := graph.frontierSet id }
  have start : graph.withFrontier graph.frontierSet = recorded [] := by
    apply mapBlocks_congr
    intro id _
    simp only [withDominators, fresh, List.filter_nil]
  have sameSize : (graph.withFrontier graph.frontierSet).basicBlocks.length = graph.size :=
    length_mapBlocks ..
  rw [buildDominatorTree, sameSize]
  refine foldl_induct (fun done gen => gen = recorded done) ?_ start
  rintro done id rest gen split rfl
  have isIdom : ((recorded done).block id).idom = graph.immediateDominator id := by
    rw [block_mapBlocks (range_split split).2]
    rfl
  rw [isIdom]
  cases isUp : graph.immediateDominator id with
  | none =>
    apply mapBlocks_congr
    intro other _
    simp only [List.filter_append, List.filter_cons, isUp, List.filter_nil, reduceCtorEq,
      beq_iff_eq, if_false, List.append_nil]
  | some dominator =>
    simp only [recorded, modifyBlock_mapBlocks]
    apply mapBlocks_congr
    intro other _
    by_cases same : other = dominator
    · rw [same, Function.update_self]
      simp only [List.filter_append, List.filter_cons, isUp, List.filter_nil,
        beq_self_eq_true, if_true]
    · rw [Function.update_of_ne same]
      have different : (some dominator == some other) = false := by
        rw [beq_eq_false_iff_ne, ne_eq, Option.some_inj]
        exact fun isSame => same isSame.symm
      simp only [List.filter_append, List.filter_cons, isUp, List.filter_nil, different,
        Bool.false_eq_true, if_false, List.append_nil]

theorem resetCFGAnalysis_eq (gen : Generator) :
    gen.resetCFGAnalysis = gen.mapBlocks fun id =>
      { gen.block id with
        dominators := ∅, numDominators := 0, dominatees := [], dominanceFrontier := ∅
        idom := none, reachabilityKnown := false, isUnreachable := false } := by
  have same : gen.basicBlocks.map (fun data : BasicBlock =>
      { data with
        dominators := ∅, numDominators := 0, dominatees := [], dominanceFrontier := ∅
        idom := none, reachabilityKnown := false, isUnreachable := false }) =
      (List.range gen.basicBlocks.length).map fun id =>
        { gen.block id with
          dominators := ∅, numDominators := 0, dominatees := [], dominanceFrontier := ∅
          idom := none, reachabilityKnown := false, isUnreachable := false } := by
    apply List.ext_getElem
    · rw [List.length_map, List.length_map, List.length_range]
    · intro id inRange _
      rw [List.length_map] at inRange
      rw [List.getElem_map, List.getElem_map, List.getElem_range, block_eq_getElem inRange]
  rw [resetCFGAnalysis, same]
  rfl

theorem block_resetCFGAnalysis (gen : Generator) (id : BlockId) :
    gen.resetCFGAnalysis.block id =
      { gen.block id with
        dominators := ∅, numDominators := 0, dominatees := [], dominanceFrontier := ∅
        idom := none, reachabilityKnown := false, isUnreachable := false } := by
  rw [resetCFGAnalysis_eq]
  by_cases inRange : id < gen.basicBlocks.length
  · exact block_mapBlocks inRange
  · have outOfRange := Nat.not_lt.mp inRange
    rw [block_of_length_le outOfRange, block_of_length_le (by rwa [length_mapBlocks])]

/-- The graph with its facts reset. -/
def reset (graph : ControlFlowGraph) : ControlFlowGraph where
  gen := graph.gen.resetCFGAnalysis
  entry_lt := by
    rw [resetCFGAnalysis_eq, length_mapBlocks]
    exact graph.entry_lt
  mem_inEdges_iff := by
    intro source target
    rw [block_resetCFGAnalysis, block_resetCFGAnalysis]
    exact graph.mem_inEdges_iff source target

theorem gen_reset : graph.reset.gen = graph.gen.resetCFGAnalysis := rfl

theorem block_reset : graph.reset.gen.block id =
    { graph.gen.block id with
      dominators := ∅, numDominators := 0, dominatees := [], dominanceFrontier := ∅
      idom := none, reachabilityKnown := false, isUnreachable := false } :=
  block_resetCFGAnalysis graph.gen id

theorem mapBlocks_reset (data : BlockId → BasicBlock) :
    graph.reset.gen.mapBlocks data = graph.gen.mapBlocks data := by
  rw [gen_reset, resetCFGAnalysis_eq, mapBlocks_mapBlocks]

theorem edge_reset : graph.reset.gen.Edge = graph.gen.Edge := by
  funext source target
  rw [Generator.Edge, Generator.Edge, block_reset]

theorem entry_reset : graph.reset.entry = graph.entry := rfl

theorem size_reset : graph.reset.size = graph.size := by
  rw [size, gen_reset, resetCFGAnalysis_eq, length_mapBlocks]

theorem reachable_reset : graph.reset.Reachable id = graph.Reachable id := by
  rw [Reachable, edge_reset, entry_reset]

theorem dominatorSet_reset : graph.reset.dominatorSet id = graph.dominatorSet id := by
  ext dominator
  rw [mem_dominatorSet, mem_dominatorSet, Dominates, edge_reset, entry_reset]

theorem immediateDominator_reset :
    graph.reset.immediateDominator id = graph.immediateDominator id := by
  apply Option.ext
  intro dominator
  rw [immediateDominator_eq_some_iff, immediateDominator_eq_some_iff,
    ImmediatelyDominates, edge_reset, entry_reset]

theorem frontierSet_reset : graph.reset.frontierSet id = graph.frontierSet id := by
  ext join
  simp only [mem_frontierSet, edge_reset, entry_reset, block_reset]

theorem children_reset : graph.reset.children id = graph.children id := by
  rw [children, children, size_reset]
  apply List.filter_congr
  intro child _
  rw [immediateDominator_reset]

theorem analyzed_reset : graph.reset.analyzed = graph.analyzed := by
  rw [analyzed, analyzed, mapBlocks_reset]
  apply mapBlocks_congr
  intro id _
  simp only [withDominators, block_reset, dominatorSet_reset, immediateDominator_reset,
    children_reset, frontierSet_reset]
  rw [reachable_reset]

theorem analysisBound_reset : graph.reset.analysisBound = graph.analysisBound := by
  simp only [analysisBound, PostorderSearch.unpushed, size_reset, block_reset]

/-! ## The result -/

/-- `AnalyzeCFG` returns the graph with its facts recorded. -/
theorem analyzeCFG_eq (graph : ControlFlowGraph) (enough : graph.analysisBound ≤ fuel) :
    graph.gen.analyzeCFG fuel = some graph.analyzed := by
  have fresh : ∀ id, (graph.reset.gen.block id).dominatees = [] := by
    intro id
    rw [block_reset]
  have noFrontier : graph.reset.gen.mapBlocks graph.reset.withDominators =
      graph.reset.withFrontier fun _ => ∅ := by
    apply mapBlocks_congr
    intro id _
    simp only [withDominators, block_reset]
  have dominators : graph.reset.gen.calculateDominators fuel =
      some (graph.reset.withFrontier fun _ => ∅) := by
    rw [← noFrontier]
    exact calculateDominators_eq (by rw [analysisBound_reset]; exact enough)
  have frontiers : (graph.reset.withFrontier fun _ => ∅).calculateDominanceFrontier fuel =
      some (graph.reset.withFrontier graph.reset.frontierSet) := by
    apply calculateDominanceFrontier_eq
    rw [size_reset]
    rw [analysisBound] at enough
    omega
  rw [gen_reset] at dominators
  simp [analyzeCFG, dominators, frontiers, buildDominatorTree_eq fresh, analyzed_reset]

/-- Everything `AnalyzeCFG` records is what the graph determines. -/
structure IsExact (graph : ControlFlowGraph) (result : Generator) : Prop where
  /-- The code and the edges are as before. -/
  unchanged : ∀ id, (result.block id).instructions = (graph.gen.block id).instructions ∧
    (result.block id).inEdges = (graph.gen.block id).inEdges ∧
    (result.block id).outEdges = (graph.gen.block id).outEdges
  /-- The dominators of a reachable block lie on every walk from the entry to it. -/
  dominators : ∀ id, graph.Reachable id → ∀ dominator,
    dominator ∈ (result.block id).dominators ↔
      ∀ visited, Walk graph.gen.Edge graph.entry visited id → dominator ∈ visited
  numDominators : ∀ id, graph.Reachable id →
    (result.block id).numDominators = (result.block id).dominators.card
  idom : ∀ id, graph.Reachable id → ∀ dominator,
    (result.block id).idom = some dominator ↔ graph.ImmediatelyDominates dominator id
  idom_isSome : ∀ id, graph.Reachable id → id ≠ graph.entry →
    ∃ dominator, (result.block id).idom = some dominator
  /-- The children of a block in the tree are the blocks it immediately dominates. -/
  dominatees : ∀ id child, child ∈ (result.block id).dominatees ↔
    graph.ImmediatelyDominates id child
  dominatees_nodup : ∀ id, (result.block id).dominatees.Nodup
  /-- The descendants of a block in the tree are the blocks it dominates. -/
  tree : ∀ dominator id, graph.Reachable id →
    (Relation.ReflTransGen (fun parent child => child ∈ (result.block parent).dominatees)
      dominator id ↔ graph.Dominates dominator id)
  frontier : ∀ id join, join ∈ (result.block id).dominanceFrontier ↔
    graph.Reachable join ∧ (graph.gen.block join).inEdges.length ≥ 2 ∧
      (∃ predecessor, graph.gen.Edge predecessor join ∧ graph.Dominates id predecessor) ∧
      ¬ graph.StrictlyDominates id join
  unreachable : ∀ id < graph.size, (result.block id).isUnreachable = true ↔ ¬ graph.Reachable id

theorem block_analyzed (inRange : id < graph.size) :
    graph.analyzed.block id =
      { graph.withDominators id with
        dominatees := graph.children id
        dominanceFrontier := graph.frontierSet id } :=
  block_mapBlocks inRange

theorem block_analyzed_of_size_le (outOfRange : graph.size ≤ id) : graph.analyzed.block id = {} :=
  block_of_length_le (by rwa [analyzed, length_mapBlocks])

theorem mem_dominatees_analyzed (id child : BlockId) :
    child ∈ (graph.analyzed.block id).dominatees ↔ graph.ImmediatelyDominates id child := by
  by_cases inRange : id < graph.size
  · rw [block_analyzed inRange]
    exact mem_children
  · rw [block_analyzed_of_size_le (Nat.not_lt.mp inRange)]
    refine iff_of_false List.not_mem_nil ?_
    intro immediate
    exact inRange (lt_of_dominates immediate.1.1)

/-- A block is reached from its dominators by going down the tree. -/
theorem descends_of_dominates {dominator : BlockId} (dominates : graph.Dominates dominator id) :
    Relation.ReflTransGen (fun parent child => child ∈ (graph.analyzed.block parent).dominatees)
      dominator id := by
  -- induction up the tree, on the number of dominators
  induction count : graph.height (some id) using Nat.strong_induction_on generalizing id with
  | _ count ih =>
    by_cases same : dominator = id
    · rw [same]
    · have notEntry : id ≠ graph.entry := by
        rintro rfl
        exact same (dominates_entry_iff.mp dominates)
      rcases exists_immediatelyDominates dominates.1 notEntry with ⟨parent, immediate⟩
      have smaller := height_lt dominates.1
      rw [immediateDominator_eq_some_iff.mpr immediate, count] at smaller
      have above := ih _ smaller (immediate.2 dominator ⟨dominates, same⟩) rfl
      exact above.tail ((mem_dominatees_analyzed parent id).mpr immediate)

theorem isExact_analyzed (graph : ControlFlowGraph) : graph.IsExact graph.analyzed where
  unchanged := by
    intro id
    by_cases inRange : id < graph.size
    · rw [block_analyzed inRange]
      exact ⟨rfl, rfl, rfl⟩
    · have outOfRange := Nat.not_lt.mp inRange
      rw [block_analyzed_of_size_le outOfRange, block_of_length_le outOfRange]
      exact ⟨rfl, rfl, rfl⟩
  dominators := by
    intro id reached dominator
    rw [block_analyzed (lt_of_reachable reached)]
    refine mem_dominatorSet.trans ?_
    constructor
    · exact And.right
    · exact fun onEveryWalk => ⟨reached, onEveryWalk⟩
  numDominators := by
    intro id reached
    rw [block_analyzed (lt_of_reachable reached)]
    rfl
  idom := by
    intro id reached dominator
    rw [block_analyzed (lt_of_reachable reached)]
    exact immediateDominator_eq_some_iff
  idom_isSome := by
    intro id reached notEntry
    rcases exists_immediatelyDominates reached notEntry with ⟨dominator, immediate⟩
    refine ⟨dominator, ?_⟩
    rw [block_analyzed (lt_of_reachable reached)]
    exact immediateDominator_eq_some_iff.mpr immediate
  dominatees := mem_dominatees_analyzed
  dominatees_nodup := by
    intro id
    by_cases inRange : id < graph.size
    · rw [block_analyzed inRange]
      exact List.nodup_range.filter _
    · rw [block_analyzed_of_size_le (Nat.not_lt.mp inRange)]
      exact List.nodup_nil
  tree := by
    intro dominator id reached
    refine ⟨?_, descends_of_dominates⟩
    intro descends
    induction descends using Relation.ReflTransGen.head_induction_on with
    | refl => exact Dominates.refl reached
    | @head parent child isChild _ dominates =>
      have immediate := (mem_dominatees_analyzed parent child).mp isChild
      exact immediate.1.1.trans dominates
  frontier := by
    intro id join
    by_cases inRange : id < graph.size
    · rw [block_analyzed inRange]
      refine mem_frontierSet.trans ?_
      constructor
      · rintro ⟨isJoin, ⟨predecessor, follows, dominates⟩, notStrict⟩
        exact ⟨dominates.1.step follows, isJoin, ⟨predecessor, follows, dominates⟩, notStrict⟩
      · rintro ⟨_, isJoin, inFrontier⟩
        exact ⟨isJoin, inFrontier⟩
    · rw [block_analyzed_of_size_le (Nat.not_lt.mp inRange)]
      refine iff_of_false (Finset.notMem_empty join) ?_
      rintro ⟨_, _, ⟨_, _, dominates⟩, _⟩
      exact inRange (lt_of_dominates dominates)
  unreachable := by
    intro id inRange
    rw [block_analyzed inRange]
    simp [withDominators]

/-- `AnalyzeCFG` returns on every graph and is exact, and where the forward path of
`CalculateDominators` applies, the general path would have ended in the same blocks. -/
theorem analyzeCFG_exact (graph : ControlFlowGraph) :
    ∃ bound, ∀ fuel ≥ bound,
      (∃ result, graph.gen.analyzeCFG fuel = some result ∧ graph.IsExact result) ∧
      (∃ result, graph.gen.calculateDominatorsByIntersection fuel = some result ∧
        (graph.gen.hasForwardSinglePredecessorCFG = true →
          graph.gen.calculateForwardSinglePredecessorDominators = result)) := by
  refine ⟨graph.analysisBound, ?_⟩
  intro fuel enough
  refine ⟨⟨graph.analyzed, analyzeCFG_eq graph enough, isExact_analyzed graph⟩,
    ⟨_, calculateDominatorsByIntersection_eq enough, ?_⟩⟩
  exact calculateForwardSinglePredecessorDominators_eq

end ControlFlowGraph

end DaveCC.Backend
