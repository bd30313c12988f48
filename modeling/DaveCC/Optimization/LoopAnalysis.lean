import DaveCC.Optimization.LoopDepths

/-!
# The natural loops of an analysed graph

`AnalyzeCFG` finds the natural loops of the graph and their nesting exactly when no
unreachable block arrives at a latch of a loop without passing the header: the search for
the blocks of a loop does not ask whether a predecessor is reachable.
-/

namespace DaveCC.Optimization

open DaveCC.Backend DaveCC.Container DaveCC.Graph DaveCC.Loop ControlFlowGraph

variable {graph : ControlFlowGraph} {fuel : Nat}

abbrev LoopTable.nestingDepth (table : LoopTable) : Nat → Nat :=
  depth (Finset.range table.numLoops) table.blocksOf

/-- The table holds the natural loops of the graph, nested as their blocks are. -/
structure NaturalLoops (graph : ControlFlowGraph) (table : LoopTable) : Prop where
  isHeader : ∀ id < table.numLoops, IsLoopHeader graph (table.loop id).header
  injective : ∀ first < table.numLoops, ∀ second < table.numLoops,
    (table.loop first).header = (table.loop second).header → first = second
  complete : ∀ header, IsLoopHeader graph header →
    ∃ id < table.numLoops, (table.loop id).header = header
  latches : ∀ id < table.numLoops, ∀ latch,
    latch ∈ (table.loop id).latches ↔ IsBackEdge graph latch (table.loop id).header
  blocks : ∀ id < table.numLoops, ∀ block, block ∈ (table.loop id).blocks ↔
    InNaturalLoop graph.gen.Edge graph.entry (table.loop id).header block
  exits : ∀ id < table.numLoops, ∀ block, block ∈ (table.loop id).exits ↔
    block ∈ (table.loop id).blocks ∧
      ∃ target, graph.gen.Edge block target ∧ target ∉ (table.loop id).blocks
  dominates : ∀ id < table.numLoops, ∀ block ∈ (table.loop id).blocks,
    graph.Dominates (table.loop id).header block
  nested : Nested (Finset.range table.numLoops) table.blocksOf
  parent : ∀ id < table.numLoops, ∀ parent, (table.loop id).parent = some parent ↔
    IsParent (Finset.range table.numLoops) table.blocksOf id parent
  children : ∀ parent child, child ∈ (table.loop parent).children ↔
    child < table.numLoops ∧ (table.loop child).parent = some parent
  depth : ∀ id < table.numLoops, (table.loop id).depth = table.nestingDepth id
  innermostLoop : ∀ block id, table.innermostLoop block = some id ↔
    id < table.numLoops ∧ block ∈ (table.loop id).blocks ∧
      ∀ other < table.numLoops, block ∈ (table.loop other).blocks →
        (table.loop other).depth ≤ (table.loop id).depth
  loopNesting : ∀ block, table.loopNesting block =
    (table.innermostLoop block).elim 0 fun id => (table.loop id).depth
  preheader : ∀ id < table.numLoops, ∀ outside, (table.loop id).preheader = some outside →
    LoopTable.IsOnlyOutside graph (table.loop id) outside

/-- Every block that arrives at a latch without passing the header is reachable. -/
def LoopsReachable (graph : ControlFlowGraph) : Prop :=
  ∀ latch header, IsBackEdge graph latch header →
    ∀ block, ReachesAvoiding graph.gen.Edge header block latch → graph.Reachable block

/-- The blocks that reach a latch are those of the natural loop. -/
theorem LoopsReachable.inLoop_iff (reachable : LoopsReachable graph) {header block : BlockId} :
    InLoop graph.gen.Edge graph.entry header block ↔
      InNaturalLoop graph.gen.Edge graph.entry header block := by
  constructor
  · intro inside
    cases inside with
    | inl same => exact Or.inl same
    | inr reaches =>
      rcases reaches with ⟨latch, back, onwards⟩
      exact Or.inr ⟨reachable latch header back block onwards, latch, back, onwards⟩
  · exact InNaturalLoop.inLoop

namespace LoopTable

variable {table base : LoopTable}

variable {id : Nat} {block : BlockId}

theorem Built.mem_blocks_iff (built : table.Built graph) (reachable : LoopsReachable graph)
    (inRange : id < table.numLoops) :
    block ∈ table.blocksOf id ↔
      InNaturalLoop graph.gen.Edge graph.entry (table.loop id).header block :=
  ((built.loops id inRange).blocks block).trans reachable.inLoop_iff

theorem Built.blocks_nonempty (built : table.Built graph) (inRange : id < table.numLoops) :
    (table.blocksOf id).Nonempty :=
  ⟨_, ((built.loops id inRange).blocks _).mpr (Or.inl rfl)⟩

theorem Built.lt_of_mem_blocks (built : table.Built graph) (inRange : id < table.numLoops)
    (inside : block ∈ table.blocksOf id) : block < graph.size := by
  have loop := built.loops id inRange
  cases (loop.blocks block).mp inside with
  | inl same =>
    rw [same]
    exact lt_of_reachable loop.isHeader.reachable
  | inr reaches =>
    rcases reaches with ⟨latch, back, onwards⟩
    cases onwards.eq_or_edge with
    | inl same =>
      rw [same]
      exact source_lt back.1
    | inr leaves =>
      cases leaves with
      | intro next follows => exact source_lt follows

/-- The loops are disjoint or nested. -/
theorem Built.nested (built : table.Built graph) (reachable : LoopsReachable graph) :
    Nested (Finset.range table.numLoops) table.blocksOf := by
  intro first isFirst second isSecond apart
  rw [Finset.mem_range] at isFirst isSecond
  have headers : (table.loop first).header ≠ (table.loop second).header :=
    fun same => apart (built.injective first isFirst second isSecond same)
  have inFirst : ∀ block, block ∈ table.blocksOf first ↔ _ :=
    fun _ => built.mem_blocks_iff reachable isFirst
  have inSecond : ∀ block, block ∈ table.blocksOf second ↔ _ :=
    fun _ => built.mem_blocks_iff reachable isSecond
  by_cases disjoint : Disjoint (table.blocksOf first) (table.blocksOf second)
  · exact Or.inl disjoint
  · rcases Finset.not_disjoint_iff.mp disjoint with ⟨shared, sharedFirst, sharedSecond⟩
    have nested := naturalLoops_nested (built.loops first isFirst).isHeader
      (built.loops second isSecond).isHeader headers ((inFirst shared).mp sharedFirst)
      ((inSecond shared).mp sharedSecond)
    apply Or.inr
    cases nested with
    | inl above =>
      refine Or.inr ⟨fun block inside => (inFirst block).mpr (above.1 block ?_), ?_⟩
      · exact (inSecond block).mp inside
      · intro subset
        exact above.2 ((inSecond _).mp (subset ((inFirst _).mpr (Or.inl rfl))))
    | inr below =>
      refine Or.inl ⟨fun block inside => (inSecond block).mpr (below.1 block ?_), ?_⟩
      · exact (inFirst block).mp inside
      · intro subset
        exact below.2 ((inFirst _).mp (subset ((inSecond _).mpr (Or.inl rfl))))

section

variable (parented : table.Parented) (built : table.Built graph) (reachable : LoopsReachable graph)

include parented built reachable

/-- The parent that was found is the smallest loop around. -/
theorem Parented.isParent {id parent : Nat} (inRange : id < table.numLoops)
    (isParent : (table.loop id).parent = some parent) :
    IsParent (Finset.range table.numLoops) table.blocksOf id parent := by
  have smallest := parented.smallest id inRange parent isParent
  apply (built.nested reachable).isParent (built.blocks_nonempty inRange)
    (Finset.mem_range.mpr smallest.1) smallest.2.1
  intro other isOther
  exact smallest.2.2 other (Finset.mem_range.mp isOther)

theorem Parented.parent_iff {id parent : Nat} (inRange : id < table.numLoops) :
    (table.loop id).parent = some parent ↔
      IsParent (Finset.range table.numLoops) table.blocksOf id parent := by
  refine ⟨parented.isParent built reachable inRange, ?_⟩
  intro isParent
  have isIndex := Finset.mem_range.mp isParent.1
  cases found : (table.loop id).parent with
  | none => exact absurd isParent.2.1 (parented.outermost id inRange found parent isIndex)
  | some other =>
    have isOther := parented.isParent built reachable inRange found
    rw [(built.nested reachable).injective isOther.1 isParent.1
      (built.blocks_nonempty (Finset.mem_range.mp isOther.1)) (isOther.unique isParent)]

/-- The depths of the nesting are the levels that the parents determine. -/
theorem Parented.areLevels : table.AreLevels table.nestingDepth := by
  have injective : ∀ id < table.numLoops, ∀ other ∈ Finset.range table.numLoops,
      table.blocksOf other = table.blocksOf id → other = id := by
    intro id inRange other isOther same
    exact (built.nested reachable).injective isOther (Finset.mem_range.mpr inRange)
      (built.blocks_nonempty (Finset.mem_range.mp isOther)) same
  constructor
  · intro id inRange isOutermost
    apply depth_of_outermost (injective id inRange) (Finset.mem_range.mpr inRange)
    intro other isOther
    exact parented.outermost id inRange isOutermost other (Finset.mem_range.mp isOther)
  · intro id inRange parent isParent
    exact depth_of_parent (injective id inRange) (Finset.mem_range.mpr inRange)
      (parented.isParent built reachable inRange isParent)

end

/-- The innermost loop of a block is the deepest one around it. -/
theorem Placed.innermostLoop_iff
    (placed : base.Placed base.nestingDepth (List.range base.numLoops) table)
    (nested : Nested (Finset.range base.numLoops) base.blocksOf) :
    table.innermostLoop block = some id ↔ id < base.numLoops ∧ block ∈ base.blocksOf id ∧
      ∀ other < base.numLoops, block ∈ base.blocksOf other →
        base.nestingDepth other ≤ base.nestingDepth id := by
  have deepest : ∀ id, table.innermostLoop block = some id →
      id < base.numLoops ∧ block ∈ base.blocksOf id ∧
      ∀ other < base.numLoops, block ∈ base.blocksOf other →
        base.nestingDepth other ≤ base.nestingDepth id := by
    intro id isInner
    have known := placed.innermost block id isInner
    simp only [List.mem_range] at known
    exact known
  refine ⟨deepest id, ?_⟩
  intro isDeepest
  rcases isDeepest with ⟨inRange, inside, below⟩
  cases found : table.innermostLoop block with
  | none => exact absurd inside ((placed.outside block found).2 id (List.mem_range.mpr inRange))
  | some inner =>
    rcases deepest inner found with ⟨innerInRange, innerInside, innerBelow⟩
    have isIndex := Finset.mem_range.mpr inRange
    have isInnerIndex := Finset.mem_range.mpr innerInRange
    rcases nested.comparable isIndex isInnerIndex inside innerInside with same | above | below'
    · rw [same]
    · have deeper := depth_lt_of_ssubset isIndex above
      exact absurd (innerBelow id inRange inside) (Nat.not_le_of_lt deeper)
    · have deeper := depth_lt_of_ssubset isInnerIndex below'
      exact absurd (below inner innerInRange innerInside) (Nat.not_le_of_lt deeper)

/-! ## The whole analysis -/

/-- The loops of the finished table, when every block of a loop is reachable. -/
theorem Finishing.naturalLoops (finishing : Finishing graph base (List.range base.numLoops) table)
    (built : base.Built graph) (parented : base.Parented) (reachable : LoopsReachable graph) :
    NaturalLoops graph table := by
  have same := finishing.same
  have placed := finishing.placed _ (parented.areLevels built reachable)
  have tableBuilt := built.congr same.toSameLoops
  have tableParented := parented.congr same
  have isDepth : ∀ id < base.numLoops, (table.loop id).depth = base.nestingDepth id :=
    fun id inRange => placed.depth id (List.mem_range.mpr inRange)
  have nestingDepth : table.nestingDepth = base.nestingDepth := by
    rw [LoopTable.nestingDepth, same.numLoops, same.blocksOf]
  constructor
  · exact fun id inRange => (tableBuilt.loops id inRange).isHeader
  · exact tableBuilt.injective
  · exact tableBuilt.complete
  · exact fun id inRange => (tableBuilt.loops id inRange).latches
  · exact fun id inRange block => tableBuilt.mem_blocks_iff reachable inRange
  · exact fun id inRange => (tableBuilt.loops id inRange).exits
  · intro id inRange block inside
    have inLoop := (tableBuilt.mem_blocks_iff reachable inRange).mp inside
    exact inLoop.dominates (tableBuilt.loops id inRange).isHeader
  · exact tableBuilt.nested reachable
  · exact fun id inRange parent => tableParented.parent_iff tableBuilt reachable inRange
  · exact tableParented.children
  · intro id inRange
    rw [nestingDepth]
    exact isDepth id (same.numLoops ▸ inRange)
  · intro block id
    rw [placed.innermostLoop_iff (built.nested reachable), same.numLoops]
    simp only [same.blocks]
    apply and_congr_right
    intro inRange
    apply and_congr_right
    intro _
    constructor
    · intro below other otherInRange inside
      rw [isDepth other otherInRange, isDepth id inRange]
      exact below other otherInRange inside
    · intro below other otherInRange inside
      rw [← isDepth other otherInRange, ← isDepth id inRange]
      exact below other otherInRange inside
  · intro block
    cases isInner : table.innermostLoop block with
    | none => exact (placed.outside block isInner).1
    | some id =>
      have inRange := List.mem_range.mp (placed.innermost block id isInner).1
      rw [placed.nesting block id isInner, Option.elim_some, isDepth id inRange]
  · intro id _ outside isPreheader
    have known := finishing.preheader id outside isPreheader
    rw [IsOnlyOutside, ← same.header, ← same.blocks] at known
    exact known

/-- `LoopInfoBuild` returns, with the loops of the graph and their nesting. -/
theorem exists_loopInfoBuild (graph : ControlFlowGraph) (enough : searchBound graph ≤ fuel) :
    ∃ base table, loopInfoBuild fuel { toGenerator := graph.analyzed } = some table ∧
      base.Built graph ∧ base.Parented ∧
      Finishing graph base (List.range base.numLoops) table := by
  rcases foldl_addBackEdges_spec { toGenerator := graph.analyzed } rfl (fun _ => rfl) with
    ⟨inBackEdges, linked, isBack⟩
  have fresh : LoopTable.Fresh { toGenerator := graph.analyzed, inBackEdges } :=
    ⟨⟨fun _ => rfl, fun _ => rfl, fun _ => rfl, fun _ => rfl⟩, fun _ => rfl, fun _ => rfl⟩
  rcases exists_buildLoops { toGenerator := graph.analyzed, inBackEdges } rfl isBack rfl fresh
    enough with ⟨loops, collected, built, loopsFresh⟩
  have ⟨same, parented, unplaced⟩ := foldl_setParent_spec loopsFresh
  have baseBuilt := built.congr same
  have large : graph.size ≤ fuel := (Nat.le_add_right _ _).trans enough
  rcases exists_finishLoops baseBuilt.isGraph parented unplaced
    (fun id inRange block => baseBuilt.lt_of_mem_blocks inRange) large with
    ⟨table, finished, finishing⟩
  refine ⟨_, table, ?_, baseBuilt, parented, finishing⟩
  rw [loopInfoBuild]
  simp only [loopInfoClear, length_analyzed]
  rw [linked]
  have returns := collected
  simp only [length_analyzed, returns, Option.bind_eq_bind, Option.bind_some]
  exact finished

end LoopTable

/-- The analysis returns the natural loops exactly when no unreachable block arrives at a latch
without passing the header. -/
theorem analyzeLoops_natural_iff (graph : ControlFlowGraph) :
    ∃ bound, ∀ fuel ≥ bound, ∃ table, analyzeLoops fuel graph.gen = some table ∧
      (NaturalLoops graph table ↔ LoopsReachable graph) := by
  refine ⟨max graph.analysisBound (searchBound graph), ?_⟩
  intro fuel enough
  rcases LoopTable.exists_loopInfoBuild graph (le_of_max_le_right enough) with
    ⟨base, table, returns, built, parented, finishing⟩
  refine ⟨table, ?_, ?_, ?_⟩
  · rw [analyzeLoops, graph.analyzeCFG_eq (le_of_max_le_left enough)]
    exact returns
  · intro natural latch header back block reaches
    have tableBuilt := built.congr finishing.same.toSameLoops
    rcases natural.complete header ⟨latch, back⟩ with ⟨id, inRange, isLoop⟩
    have inside := ((tableBuilt.loops id inRange).blocks block).mpr
      (isLoop ▸ Or.inr ⟨latch, back, reaches⟩)
    cases (natural.blocks id inRange block).mp inside with
    | inl same =>
      rw [same]
      exact (natural.isHeader id inRange).reachable
    | inr reached => exact reached.1
  · exact finishing.naturalLoops built parented

/-- The blocks of a function before their edges are known. -/
def unlinkedBlocks : ControlFlowGraph :=
  .ofBlocks
    { nodes := fun _ => { opcode := .ret }, basicBlocks := List.replicate 5 {}, entryBlock := 0 }
    (by decide) (by
      intro id
      rw [Generator.block, List.getD_eq_getElem?_getD, List.getElem?_replicate]
      split <;> exact ⟨rfl, rfl⟩)

/-- The loop of the blocks 1 and 2, and an unreachable block 3 that jumps into it. -/
def strayEntry : ControlFlowGraph :=
  ((((unlinkedBlocks.addEdge 0 1 (by decide) (by decide)).addEdge 1 2 (by decide)
    (by decide)).addEdge 2 1 (by decide) (by decide)).addEdge 3 2 (by decide)
    (by decide)).addEdge 1 4 (by decide) (by decide)

/-- The search collects the unreachable block. -/
theorem strayEntry_not_natural :
    ∃ table, analyzeLoops 100 strayEntry.gen = some table ∧ ¬ NaturalLoops strayEntry table := by
  have collected : (analyzeLoops 100 strayEntry.gen).map (fun table =>
      (table.numLoops, (table.loop 0).header, decide (3 ∈ (table.loop 0).blocks))) =
        some (1, 1, true) := by
    decide +kernel
  rcases Option.map_eq_some_iff.mp collected with ⟨table, returns, facts⟩
  refine ⟨table, returns, ?_⟩
  intro natural
  simp only [Prod.mk.injEq, decide_eq_true_eq] at facts
  have inside := (natural.blocks 0 (by rw [facts.1]; decide) 3).mp facts.2.2
  rw [facts.2.1] at inside
  have unreachable : ¬ strayEntry.Reachable 3 := by
    intro reached
    have apart : (3 : BlockId) ≠ 3 := by
      refine Graph.Reachable.induct (· ≠ 3) (by decide) ?_ reached
      intro source target _ _ follows same
      have noEdges : (strayEntry.gen.block 3).inEdges = [] := by decide
      rw [same, edge_iff_mem_inEdges, noEdges] at follows
      exact absurd follows List.not_mem_nil
    exact apart rfl
  cases inside with
  | inl same => exact absurd same (by decide)
  | inr reached => exact unreachable reached.1

end DaveCC.Optimization
