import DaveCC.Backend.AnalyzeCFG
import DaveCC.Graph.NaturalLoops

/-!
# Loop information

`LoopInfoBuild` of `loop_info.c` after the analysis of the control-flow graph. A loop is
known by its `loop_id`, its position in `loops`, and a bit set of blocks is a `Finset` that
is iterated in the order of the blocks. `parent_size == SIZE_MAX` is an absent candidate.
-/

namespace DaveCC.Optimization

open DaveCC.Backend DaveCC.Loop

structure LoopInfo where
  header : BlockId := 0
  preheader : Option BlockId := none
  blocks : Finset BlockId := ∅
  latches : Finset BlockId := ∅
  exits : Finset BlockId := ∅
  parent : Option Nat := none
  children : List Nat := []
  depth : Nat := 1

/-- A generator with the loops of its function and what the blocks record about them. -/
structure LoopTable extends Generator where
  numLoops : Nat := 0
  loop : Nat → LoopInfo := fun _ => {}
  inBackEdges : BlockId → Finset BlockId := fun _ => ∅
  innermostLoop : BlockId → Option Nat := fun _ => none
  loopNesting : BlockId → Nat := fun _ => 0

/-- The blocks of a bit set in the order of `BitSetIterator`. -/
def iterate (gen : Generator) (set : Finset BlockId) : List BlockId :=
  (List.range gen.basicBlocks.length).filter (· ∈ set)

/-- The locals of the search for the blocks of a natural loop. The last element of the work
list comes first. -/
structure LoopSearch where
  work : List BlockId
  blocks : Finset BlockId

def loopSearchStep (gen : Generator) (search : LoopSearch) : LoopSearch :=
  match search.work with
  | [] => search
  | block :: work =>
    if block ∈ search.blocks then { search with work }
    else
      { work := (gen.block block).inEdges.reverse ++ work
        blocks := insert block search.blocks }

/-- The blocks that the search from the latches collects. -/
def loopBlocks (fuel : Nat) (gen : Generator) (header : BlockId) (latches : Finset BlockId) :
    Option (Finset BlockId) :=
  (runWhile (fun search => !search.work.isEmpty) (fun search => some (loopSearchStep gen search))
    fuel { work := (iterate gen latches).reverse, blocks := {header} }).map LoopSearch.blocks

/-- The blocks of a loop with a successor outside. -/
def loopExits (gen : Generator) (blocks : Finset BlockId) : Finset BlockId :=
  blocks.filter fun block => ∃ target ∈ (gen.block block).outEdges, target ∉ blocks

/-- The predecessor of the header outside the loop, absent when there are two. -/
def outsidePredecessor (loop : LoopInfo) (inEdges : List BlockId) : Option (Option BlockId) :=
  inEdges.foldlM
    (fun outside predecessor =>
      if predecessor ∈ loop.blocks then some outside
      else if outside.any (· != predecessor) then none
      else some (some predecessor))
    none

def findPreheader (gen : Generator) (loop : LoopInfo) : Option BlockId :=
  match outsidePredecessor loop (gen.block loop.header).inEdges with
  | some (some outside) =>
    if (gen.block outside).outEdges = [loop.header] then some outside else none
  | _ => none

def loopContainsLoop (outer inner : LoopInfo) : Bool :=
  decide (inner.blocks.card < outer.blocks.card) && decide (inner.blocks ⊆ outer.blocks)

namespace LoopTable

def modifyLoop (table : LoopTable) (id : Nat) (change : LoopInfo → LoopInfo) : LoopTable :=
  { table with loop := Function.update table.loop id (change (table.loop id)) }

def loopInfoClear (table : LoopTable) : LoopTable :=
  { toGenerator := table.toGenerator }

/-- `BasicBlockAddBackEdge(latch, header)`. -/
def addBackEdge (table : LoopTable) (latch header : BlockId) : LoopTable :=
  { table with
    inBackEdges := Function.update table.inBackEdges header
      (insert latch (table.inBackEdges header)) }

/-- The loop over the out edges of a block that finds the back edges. -/
def addBackEdges (table : LoopTable) (latch : BlockId) : LoopTable :=
  (table.block latch).outEdges.foldl
    (fun table header =>
      if header ∈ (table.block latch).dominators then table.addBackEdge latch header else table)
    table

/-- The loop of a header, when it has latches. -/
def buildLoop (fuel : Nat) (table : LoopTable) (header : BlockId) : Option LoopTable :=
  if (table.inBackEdges header).card = 0 then some table
  else do
    let latches := table.inBackEdges header
    let blocks ← loopBlocks fuel table.toGenerator header latches
    some { table with
      numLoops := table.numLoops + 1
      loop := Function.update table.loop table.numLoops
        { header, latches, blocks, exits := loopExits table.toGenerator blocks } }

/-- One candidate for the parent of a loop, with the best one so far and its size. -/
def considerParent (table : LoopTable) (id : Nat) (best : Option (Nat × Nat)) (candidate : Nat) :
    Option (Nat × Nat) :=
  if candidate == id || !loopContainsLoop (table.loop candidate) (table.loop id) then best
  else
    let size := (table.loop candidate).blocks.card
    if best.all (size < ·.2) then some (candidate, size) else best

/-- The loop that finds the parent of a loop. -/
def setParent (table : LoopTable) (id : Nat) : LoopTable :=
  match (List.range table.numLoops).foldl (table.considerParent id) none with
  | none => table
  | some (parent, _) =>
    (table.modifyLoop id fun loop => { loop with parent := some parent }).modifyLoop parent
      fun loop => { loop with children := loop.children ++ [id] }

def calculateLoopDepth : Nat → LoopTable → Nat → Option (Nat × LoopTable)
  | fuel, table, id =>
    match (table.loop id).parent with
    | none => some (1, table)
    | some parent =>
      if (table.loop id).depth > 1 then some ((table.loop id).depth, table)
      else
        match fuel with
        | 0 => none
        | fuel + 1 => do
            let (above, table) ← calculateLoopDepth fuel table parent
            some (above + 1, table.modifyLoop id fun loop => { loop with depth := above + 1 })

/-- A block that finds itself in a loop. -/
def enterBlock (id : Nat) (table : LoopTable) (block : BlockId) : LoopTable :=
  if (table.innermostLoop block).all fun inner =>
      (table.loop id).depth > (table.loop inner).depth then
    { table with
      innermostLoop := Function.update table.innermostLoop block (some id)
      loopNesting := Function.update table.loopNesting block (table.loop id).depth }
  else table

def setPreheader (table : LoopTable) (id : Nat) : LoopTable :=
  match findPreheader table.toGenerator (table.loop id) with
  | none => table
  | some preheader => table.modifyLoop id fun loop => { loop with preheader := some preheader }

/-- The body of the last loop of `LoopInfoBuild`. -/
def finishLoop (fuel : Nat) (table : LoopTable) (id : Nat) : Option LoopTable := do
  let (depth, table) ← table.calculateLoopDepth fuel id
  let table := table.modifyLoop id fun loop => { loop with depth }
  let table := table.setPreheader id
  some ((iterate table.toGenerator (table.loop id).blocks).foldl (enterBlock id) table)

def loopInfoBuild (fuel : Nat) (table : LoopTable) : Option LoopTable := do
  let table := (List.range table.basicBlocks.length).foldl addBackEdges table.loopInfoClear
  let table ← (List.range table.basicBlocks.length).foldlM (buildLoop fuel) table
  let table := (List.range table.numLoops).foldl setParent table
  (List.range table.numLoops).foldlM (finishLoop fuel) table

end LoopTable

/-- `AnalyzeCFG`, with the loops of the function. -/
def analyzeLoops (fuel : Nat) (gen : Generator) : Option LoopTable := do
  let gen ← gen.analyzeCFG fuel
  LoopTable.loopInfoBuild fuel { toGenerator := gen }

end DaveCC.Optimization

/-!
## The blocks of a loop

The back edges that `LoopInfoBuild` finds are those of the graph, and its search collects the
header and the blocks that reach a latch without passing the header.
-/

namespace DaveCC.Optimization

open DaveCC.Backend DaveCC.Graph DaveCC.Loop

variable {graph : ControlFlowGraph} {id header latch : BlockId} {fuel : Nat}

theorem inEdges_analyzed :
    (graph.analyzed.block id).inEdges = (graph.gen.block id).inEdges :=
  (graph.isExact_analyzed.unchanged id).2.1

theorem outEdges_analyzed :
    (graph.analyzed.block id).outEdges = (graph.gen.block id).outEdges :=
  (graph.isExact_analyzed.unchanged id).2.2

variable {source target : BlockId}

theorem mem_outEdges_analyzed :
    target ∈ (graph.analyzed.block source).outEdges ↔ graph.gen.Edge source target := by
  rw [outEdges_analyzed]
  rfl

theorem mem_inEdges_analyzed :
    source ∈ (graph.analyzed.block target).inEdges ↔ graph.gen.Edge source target := by
  rw [inEdges_analyzed]
  exact ControlFlowGraph.edge_iff_mem_inEdges.symm

theorem mem_dominators_analyzed {dominator : BlockId} :
    dominator ∈ (graph.analyzed.block id).dominators ↔ graph.Dominates dominator id := by
  by_cases inRange : id < graph.size
  · rw [ControlFlowGraph.block_analyzed inRange]
    exact ControlFlowGraph.mem_dominatorSet
  · rw [ControlFlowGraph.block_analyzed_of_size_le (Nat.not_lt.mp inRange)]
    refine iff_of_false (Finset.notMem_empty dominator) ?_
    intro dominates
    exact inRange (ControlFlowGraph.lt_of_reachable dominates.1)

theorem length_analyzed : graph.analyzed.basicBlocks.length = graph.size :=
  Generator.length_mapBlocks _ _

theorem mem_iterate {gen : Generator} {set : Finset BlockId} :
    id ∈ iterate gen set ↔ id < gen.basicBlocks.length ∧ id ∈ set := by
  simp [iterate]

/-! ## Back edges -/

abbrev IsBackEdge (graph : ControlFlowGraph) (latch header : BlockId) : Prop :=
  BackEdge graph.gen.Edge graph.entry latch header

/-- The edges of one block are examined. -/
theorem addBackEdges_spec (table : LoopTable) (latch : BlockId)
    (isGraph : table.toGenerator = graph.analyzed) :
    ∃ inBackEdges, table.addBackEdges latch = { table with inBackEdges } ∧
      ∀ source header, source ∈ inBackEdges header ↔
        source ∈ table.inBackEdges header ∨ (source = latch ∧ IsBackEdge graph latch header) := by
  have dominators : ∀ dominator, dominator ∈ (table.block latch).dominators ↔
      graph.Dominates dominator latch := by
    intro dominator
    rw [isGraph]
    exact mem_dominators_analyzed
  have invariant : ∃ inBackEdges, table.addBackEdges latch = { table with inBackEdges } ∧
      ∀ source header, source ∈ inBackEdges header ↔
        source ∈ table.inBackEdges header ∨ (source = latch ∧
          header ∈ (table.block latch).outEdges ∧ graph.Dominates header latch) := by
    apply foldl_induct (fun front (state : LoopTable) => ∃ inBackEdges,
      state = { table with inBackEdges } ∧
      ∀ source header, source ∈ inBackEdges header ↔
        source ∈ table.inBackEdges header ∨
          (source = latch ∧ header ∈ front ∧ graph.Dominates header latch))
    · intro front item back state _ holds
      rcases holds with ⟨inBackEdges, rfl, members⟩
      by_cases dominates : graph.Dominates item latch
      · refine ⟨_, if_pos ((dominators item).mpr dominates), ?_⟩
        intro source header
        simp only [Function.update_apply, List.mem_append, List.mem_singleton]
        by_cases same : header = item
        · rw [if_pos same, Finset.mem_insert, same, members]
          grind
        · rw [if_neg same, members]
          grind
      · refine ⟨inBackEdges, if_neg (mt (dominators item).mp dominates), ?_⟩
        intro source header
        grind
    · exact ⟨table.inBackEdges, rfl, fun source header => by simp⟩
  rcases invariant with ⟨inBackEdges, result, members⟩
  refine ⟨inBackEdges, result, ?_⟩
  intro source header
  rw [members, isGraph, mem_outEdges_analyzed]
  rfl

/-- `LoopInfoBuild` finds the back edges of the graph. -/
theorem foldl_addBackEdges_spec (table : LoopTable) (isGraph : table.toGenerator = graph.analyzed)
    (empty : ∀ header, table.inBackEdges header = ∅) :
    ∃ inBackEdges,
      (List.range graph.size).foldl LoopTable.addBackEdges table = { table with inBackEdges } ∧
      ∀ latch header, latch ∈ inBackEdges header ↔ IsBackEdge graph latch header := by
  have invariant : ∃ inBackEdges,
      (List.range graph.size).foldl LoopTable.addBackEdges table = { table with inBackEdges } ∧
      ∀ latch header, latch ∈ inBackEdges header ↔
        latch ∈ List.range graph.size ∧ IsBackEdge graph latch header := by
    apply foldl_induct (fun front (state : LoopTable) => ∃ inBackEdges,
      state = { table with inBackEdges } ∧
      ∀ latch header, latch ∈ inBackEdges header ↔ latch ∈ front ∧ IsBackEdge graph latch header)
    · intro front item back state _ holds
      rcases holds with ⟨inBackEdges, rfl, members⟩
      rcases addBackEdges_spec { table with inBackEdges } item isGraph with
        ⟨after, result, added⟩
      refine ⟨after, result, ?_⟩
      intro latch header
      grind
    · exact ⟨table.inBackEdges, rfl, fun latch header => by simp [empty]⟩
  rcases invariant with ⟨inBackEdges, result, members⟩
  refine ⟨inBackEdges, result, ?_⟩
  intro latch header
  rw [members, List.mem_range]
  constructor
  · exact And.right
  · exact fun isBack => ⟨ControlFlowGraph.source_lt isBack.1, isBack⟩

/-- The header or a block that reaches a latch without passing the header. -/
def Collects (graph : ControlFlowGraph) (header : BlockId) (latches : Finset BlockId)
    (id : BlockId) : Prop :=
  id = header ∨ ∃ latch ∈ latches, ReachesAvoiding graph.gen.Edge header id latch

/-- What one iteration of the search keeps. -/
structure SearchInvariant (graph : ControlFlowGraph) (header : BlockId) (latches : Finset BlockId)
    (search : LoopSearch) : Prop where
  start : header ∈ search.blocks
  collected : ∀ id ∈ search.blocks, Collects graph header latches id
  waiting : ∀ id ∈ search.work, id < graph.size ∧ Collects graph header latches id
  entered : ∀ latch ∈ latches, latch ∈ search.blocks ∨ latch ∈ search.work
  /-- A predecessor of a collected block is collected, or waits for it. -/
  closed : ∀ id ∈ search.blocks, id ≠ header → ∀ source, graph.gen.Edge source id →
    source ∈ search.blocks ∨ source ∈ search.work

/-- The blocks still to be examined, with the in edges of those that are not collected. -/
def searchRemaining (graph : ControlFlowGraph) (search : LoopSearch) : Nat :=
  search.work.length +
    ∑ id ∈ Finset.range graph.size \ search.blocks, (graph.gen.block id).inEdges.length

variable {latches : Finset BlockId} {search : LoopSearch} {work : List BlockId}

section

variable (invariant : SearchInvariant graph header latches search)

include invariant

/-- A block that is already collected is dropped. -/
theorem SearchInvariant.drop (isWork : search.work = id :: work) (collected : id ∈ search.blocks) :
    SearchInvariant graph header latches { search with work } where
  start := invariant.start
  collected := invariant.collected
  waiting := by
    intro other inside
    exact invariant.waiting other (isWork ▸ List.mem_cons_of_mem _ inside)
  entered := by
    intro latch isLatch
    have before := invariant.entered latch isLatch
    grind
  closed := by
    intro target inside apart source follows
    have before := invariant.closed target inside apart source follows
    grind

/-- A new block is collected, and its predecessors wait. -/
theorem SearchInvariant.collect (isWork : search.work = id :: work) (fresh : id ∉ search.blocks) :
    SearchInvariant graph header latches
      { work := (graph.analyzed.block id).inEdges.reverse ++ work
        blocks := insert id search.blocks } where
  start := Finset.mem_insert_of_mem invariant.start
  collected := by
    intro other inside
    cases Finset.mem_insert.mp inside with
    | inl same =>
      rw [same]
      exact (invariant.waiting id (isWork ▸ List.mem_cons_self)).2
    | inr before => exact invariant.collected other before
  waiting := by
    intro other inside
    cases List.mem_append.mp inside with
    | inl isSource =>
      rw [List.mem_reverse, mem_inEdges_analyzed] at isSource
      refine ⟨ControlFlowGraph.source_lt isSource, ?_⟩
      by_cases isHeader : other = header
      · exact Or.inl isHeader
      · cases (invariant.waiting id (isWork ▸ List.mem_cons_self)).2 with
        | inl same => exact absurd (same ▸ invariant.start) fresh
        | inr reaches =>
          rcases reaches with ⟨latch, isLatch, onwards⟩
          exact Or.inr ⟨latch, isLatch, .head isSource isHeader onwards⟩
    | inr before => exact invariant.waiting other (isWork ▸ List.mem_cons_of_mem _ before)
  entered := by
    intro latch isLatch
    have before := invariant.entered latch isLatch
    grind
  closed := by
    intro target inside apart source follows
    cases Finset.mem_insert.mp inside with
    | inl same =>
      rw [same] at follows
      have waits := List.mem_reverse.mpr (mem_inEdges_analyzed.mpr follows)
      exact Or.inr (List.mem_append_left _ waits)
    | inr before =>
      have known := invariant.closed target before apart source follows
      grind

/-- One iteration keeps the invariant, and less remains. -/
theorem SearchInvariant.step (nonempty : search.work.isEmpty = false) :
    SearchInvariant graph header latches (loopSearchStep graph.analyzed search) ∧
      searchRemaining graph (loopSearchStep graph.analyzed search) <
        searchRemaining graph search := by
  cases isWork : search.work with
  | nil =>
    rw [isWork] at nonempty
    cases nonempty
  | cons id work =>
    by_cases collected : id ∈ search.blocks
    · have dropped : loopSearchStep graph.analyzed search = { search with work } := by
        simp only [loopSearchStep, isWork, collected, if_true]
      rw [dropped]
      refine ⟨invariant.drop isWork collected, ?_⟩
      simp only [searchRemaining, isWork, List.length_cons]
      omega
    · have added : loopSearchStep graph.analyzed search =
          { work := (graph.analyzed.block id).inEdges.reverse ++ work
            blocks := insert id search.blocks } := by
        simp only [loopSearchStep, isWork, collected, if_false]
      rw [added]
      refine ⟨invariant.collect isWork collected, ?_⟩
      have inRange := (invariant.waiting id (isWork ▸ List.mem_cons_self)).1
      have counted : id ∈ Finset.range graph.size \ search.blocks :=
        Finset.mem_sdiff.mpr ⟨Finset.mem_range.mpr inRange, collected⟩
      have total : (graph.gen.block id).inEdges.length +
          ∑ other ∈ Finset.range graph.size \ insert id search.blocks,
            (graph.gen.block other).inEdges.length =
          ∑ other ∈ Finset.range graph.size \ search.blocks,
            (graph.gen.block other).inEdges.length := by
        rw [Finset.sdiff_insert]
        exact Finset.add_sum_erase _ (fun id => (graph.gen.block id).inEdges.length) counted
      rw [searchRemaining, searchRemaining, isWork, List.length_append, List.length_reverse,
        inEdges_analyzed, List.length_cons]
      dsimp only
      omega

/-- When no block waits, everything that reaches a latch is collected. -/
theorem SearchInvariant.complete (done : search.work = []) :
    id ∈ search.blocks ↔ Collects graph header latches id := by
  constructor
  · exact invariant.collected id
  · intro collects
    cases collects with
    | inl same =>
      rw [same]
      exact invariant.start
    | inr reaches =>
      rcases reaches with ⟨latch, isLatch, visited, walk, avoids⟩
      have latchIn := invariant.entered latch isLatch
      rw [done] at latchIn
      replace latchIn := latchIn.resolve_right List.not_mem_nil
      clear isLatch
      -- backwards along the walk
      induction walk with
      | start => exact latchIn
      | @step visited middle target walk follows ih =>
        have apart : target ≠ header := by
          intro same
          exact avoids (same ▸ List.mem_cons_self)
        have before := invariant.closed target latchIn apart middle follows
        rw [done] at before
        exact ih (fun inside => avoids (List.mem_cons_of_mem _ inside))
          (before.resolve_right List.not_mem_nil)

end

/-- The iterations that are enough for the search. -/
def searchBound (graph : ControlFlowGraph) : Nat :=
  graph.size + ∑ id ∈ Finset.range graph.size, (graph.gen.block id).inEdges.length

theorem exists_loopBlocks (header : BlockId) (inRange : ∀ latch ∈ latches, latch < graph.size)
    (enough : searchBound graph ≤ fuel) :
    ∃ blocks, loopBlocks fuel graph.analyzed header latches = some blocks ∧
      ∀ id, id ∈ blocks ↔ Collects graph header latches id := by
  have isLatch : ∀ id, id ∈ (iterate graph.analyzed latches).reverse ↔ id ∈ latches := by
    intro id
    rw [List.mem_reverse, mem_iterate, length_analyzed]
    exact ⟨And.right, fun isLatch => ⟨inRange id isLatch, isLatch⟩⟩
  have start : SearchInvariant graph header latches
      { work := (iterate graph.analyzed latches).reverse, blocks := {header} } := by
    constructor
    · exact Finset.mem_singleton_self header
    · intro id inside
      exact Or.inl (Finset.mem_singleton.mp inside)
    · intro id inside
      have member := (isLatch id).mp inside
      refine ⟨inRange id member, ?_⟩
      by_cases same : id = header
      · exact Or.inl same
      · exact Or.inr ⟨id, member, .refl same⟩
    · intro latch member
      exact Or.inr ((isLatch latch).mpr member)
    · intro id inside apart
      exact absurd (Finset.mem_singleton.mp inside) apart
  have bounded : searchRemaining graph
      { work := (iterate graph.analyzed latches).reverse, blocks := {header} } ≤ fuel := by
    have short : (iterate graph.analyzed latches).length ≤ graph.size := by
      apply (List.length_filter_le _ _).trans
      rw [List.length_range, length_analyzed]
    have fewer : ∑ id ∈ Finset.range graph.size \ {header}, (graph.gen.block id).inEdges.length ≤
        ∑ id ∈ Finset.range graph.size, (graph.gen.block id).inEdges.length :=
      Finset.sum_le_sum_of_subset Finset.sdiff_subset
    rw [searchBound] at enough
    rw [searchRemaining, List.length_reverse]
    dsimp only
    omega
  have loop : ∃ final,
      runWhile (fun search => !search.work.isEmpty)
        (fun search => some (loopSearchStep graph.analyzed search)) fuel
        { work := (iterate graph.analyzed latches).reverse, blocks := {header} } = some final ∧
      SearchInvariant graph header latches final ∧ (!final.work.isEmpty) = false := by
    apply exists_runWhile (SearchInvariant graph header latches) (searchRemaining graph) _ start
      bounded
    intro search invariant continues
    exact ⟨_, rfl, invariant.step (by simpa using continues)⟩
  rcases loop with ⟨final, returns, invariant, finished⟩
  have done : final.work = [] := by simpa using finished
  refine ⟨final.blocks, ?_, fun id => invariant.complete done⟩
  rw [loopBlocks, returns]
  rfl

end DaveCC.Optimization
