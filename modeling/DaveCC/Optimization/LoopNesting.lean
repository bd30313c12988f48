import DaveCC.Container.NestedSets
import DaveCC.Optimization.LoopInfo

/-!
# The loops and their parents

`LoopInfoBuild` makes one loop for every header, and the parent of a loop is a smallest loop
strictly around it.
-/

namespace DaveCC.Optimization

open DaveCC.Backend DaveCC.Container DaveCC.Graph DaveCC.Loop

abbrev IsLoopHeader (graph : ControlFlowGraph) (header : BlockId) : Prop :=
  IsHeader graph.gen.Edge graph.entry header

variable {graph : ControlFlowGraph} {fuel : Nat}

/-- What a loop holds once its blocks are collected. -/
structure BuiltLoop (graph : ControlFlowGraph) (loop : LoopInfo) : Prop where
  isHeader : IsLoopHeader graph loop.header
  latches : ∀ latch, latch ∈ loop.latches ↔ IsBackEdge graph latch loop.header
  blocks : ∀ id, id ∈ loop.blocks ↔ InLoop graph.gen.Edge graph.entry loop.header id
  exits : ∀ id, id ∈ loop.exits ↔
    id ∈ loop.blocks ∧ ∃ target, graph.gen.Edge id target ∧ target ∉ loop.blocks

namespace LoopTable

def blocksOf (table : LoopTable) (id : Nat) : Finset BlockId :=
  (table.loop id).blocks

/-- The loops of the table are those of the graph, one for each header. -/
structure Built (graph : ControlFlowGraph) (table : LoopTable) : Prop where
  isGraph : table.toGenerator = graph.analyzed
  loops : ∀ id < table.numLoops, BuiltLoop graph (table.loop id)
  injective : ∀ first < table.numLoops, ∀ second < table.numLoops,
    (table.loop first).header = (table.loop second).header → first = second
  complete : ∀ header, IsLoopHeader graph header →
    ∃ id < table.numLoops, (table.loop id).header = header

/-- No loop has been placed in the nesting. -/
structure Unplaced (table : LoopTable) : Prop where
  depth : ∀ id, (table.loop id).depth = 1
  preheader : ∀ id, (table.loop id).preheader = none
  innermostLoop : ∀ block, table.innermostLoop block = none
  loopNesting : ∀ block, table.loopNesting block = 0

/-- Nothing is known about the nesting of the loops. -/
structure Fresh (table : LoopTable) : Prop extends Unplaced table where
  parent : ∀ id, (table.loop id).parent = none
  children : ∀ id, (table.loop id).children = []

/-- The loops of the headers among the first blocks. -/
structure Building (graph : ControlFlowGraph) (inBackEdges : BlockId → Finset BlockId)
    (front : List BlockId) (table : LoopTable) : Prop where
  isGraph : table.toGenerator = graph.analyzed
  backEdges : table.inBackEdges = inBackEdges
  loops : ∀ id < table.numLoops, BuiltLoop graph (table.loop id) ∧ (table.loop id).header ∈ front
  injective : ∀ first < table.numLoops, ∀ second < table.numLoops,
    (table.loop first).header = (table.loop second).header → first = second
  complete : ∀ header ∈ front, IsLoopHeader graph header →
    ∃ id < table.numLoops, (table.loop id).header = header
  fresh : table.Fresh

variable {table : LoopTable} {inBackEdges : BlockId → Finset BlockId} {front : List BlockId}
  {header : BlockId}

/-- A block without latches is no header. -/
theorem Building.skip (building : table.Building graph inBackEdges front)
    (isBack : ∀ latch header, latch ∈ inBackEdges header ↔ IsBackEdge graph latch header)
    (noLatch : inBackEdges header = ∅) :
    table.Building graph inBackEdges (front ++ [header]) where
  isGraph := building.isGraph
  backEdges := building.backEdges
  loops := by
    intro id inRange
    have before := building.loops id inRange
    exact ⟨before.1, List.mem_append_left _ before.2⟩
  injective := building.injective
  complete := by
    intro other inside isHeader
    cases List.mem_append.mp inside with
    | inl before => exact building.complete other before isHeader
    | inr last =>
      rw [List.mem_singleton.mp last] at isHeader
      cases isHeader with
      | intro latch back =>
        have impossible := (isBack latch header).mpr back
        rw [noLatch] at impossible
        exact absurd impossible (Finset.notMem_empty latch)
  fresh := building.fresh

/-- A loop is added at the end. -/
theorem Building.add (building : table.Building graph inBackEdges front) {loop : LoopInfo}
    (built : BuiltLoop graph loop) (isNew : loop.header ∉ front)
    (unnested : loop.parent = none ∧ loop.children = [] ∧ loop.depth = 1 ∧ loop.preheader = none) :
    ({ table with
        numLoops := table.numLoops + 1
        loop := Function.update table.loop table.numLoops loop } : LoopTable).Building graph
      inBackEdges (front ++ [loop.header]) := by
  have old : ∀ id < table.numLoops,
      Function.update table.loop table.numLoops loop id = table.loop id := by
    intro id inRange
    exact Function.update_of_ne (Nat.ne_of_lt inRange) _ _
  have new : Function.update table.loop table.numLoops loop table.numLoops = loop :=
    Function.update_self _ _ _
  have apart : ∀ id < table.numLoops, (table.loop id).header ≠ loop.header := by
    intro id inRange same
    exact isNew (same ▸ (building.loops id inRange).2)
  constructor
  · exact building.isGraph
  · exact building.backEdges
  · intro id inRange
    dsimp only at inRange ⊢
    cases Nat.lt_succ_iff_lt_or_eq.mp inRange with
    | inl before =>
      rw [old id before]
      have known := building.loops id before
      exact ⟨known.1, List.mem_append_left _ known.2⟩
    | inr last =>
      rw [last, new]
      exact ⟨built, List.mem_append_right _ (List.mem_singleton_self _)⟩
  · intro first firstInRange second secondInRange same
    dsimp only at firstInRange secondInRange same
    cases Nat.lt_succ_iff_lt_or_eq.mp firstInRange with
    | inl firstBefore =>
      rw [old first firstBefore] at same
      cases Nat.lt_succ_iff_lt_or_eq.mp secondInRange with
      | inl secondBefore =>
        rw [old second secondBefore] at same
        exact building.injective first firstBefore second secondBefore same
      | inr secondLast =>
        rw [secondLast, new] at same
        exact absurd same (apart first firstBefore)
    | inr firstLast =>
      rw [firstLast, new] at same
      cases Nat.lt_succ_iff_lt_or_eq.mp secondInRange with
      | inl secondBefore =>
        rw [old second secondBefore] at same
        exact absurd same.symm (apart second secondBefore)
      | inr secondLast => rw [firstLast, secondLast]
  · intro other inside isHeader
    cases List.mem_append.mp inside with
    | inl before =>
      rcases building.complete other before isHeader with ⟨id, inRange, isLoop⟩
      refine ⟨id, Nat.lt_succ_of_lt inRange, ?_⟩
      dsimp only
      rw [old id inRange]
      exact isLoop
    | inr last =>
      refine ⟨table.numLoops, Nat.lt_succ_self _, ?_⟩
      dsimp only
      rw [new, List.mem_singleton.mp last]
  · have fresh := building.fresh
    refine ⟨⟨?_, ?_, fresh.innermostLoop, fresh.loopNesting⟩, ?_, ?_⟩
    · intro id
      by_cases last : id = table.numLoops
      · simpa [last] using unnested.2.2.1
      · simpa [last] using fresh.depth id
    · intro id
      by_cases last : id = table.numLoops
      · simpa [last] using unnested.2.2.2
      · simpa [last] using fresh.preheader id
    · intro id
      by_cases last : id = table.numLoops
      · simpa [last] using unnested.1
      · simpa [last] using fresh.parent id
    · intro id
      by_cases last : id = table.numLoops
      · simpa [last] using unnested.2.1
      · simpa [last] using fresh.children id

/-- The loop of one header. -/
theorem Building.buildLoop (building : table.Building graph inBackEdges front)
    (isBack : ∀ latch header, latch ∈ inBackEdges header ↔ IsBackEdge graph latch header)
    (isNew : header ∉ front) (enough : searchBound graph ≤ fuel) :
    ∃ next, table.buildLoop fuel header = some next ∧
      next.Building graph inBackEdges (front ++ [header]) := by
  rw [LoopTable.buildLoop]
  by_cases noLatch : inBackEdges header = ∅
  · refine ⟨table, if_pos ?_, building.skip isBack noLatch⟩
    rw [building.backEdges, noLatch, Finset.card_empty]
  · have latches : ¬ (table.inBackEdges header).card = 0 := by
      rw [building.backEdges]
      exact mt Finset.card_eq_zero.mp noLatch
    have inRange : ∀ latch ∈ inBackEdges header, latch < graph.size := by
      intro latch isLatch
      exact ControlFlowGraph.source_lt ((isBack latch header).mp isLatch).1
    rcases exists_loopBlocks header inRange enough with ⟨blocks, returns, members⟩
    rw [← building.isGraph, ← building.backEdges] at returns
    have built : BuiltLoop graph
        { header, latches := table.inBackEdges header, blocks,
          exits := loopExits table.toGenerator blocks } := by
      constructor
      · cases Finset.nonempty_iff_ne_empty.mpr noLatch with
        | intro latch isLatch => exact ⟨latch, (isBack latch header).mp isLatch⟩
      · intro latch
        rw [building.backEdges]
        exact isBack latch header
      · intro id
        rw [members]
        simp only [Collects, isBack]
        rfl
      · intro id
        simp [building.isGraph, loopExits, mem_outEdges_analyzed]
    rw [if_neg latches]
    dsimp only
    rw [returns]
    exact ⟨_, rfl, building.add built isNew ⟨rfl, rfl, rfl, rfl⟩⟩

open LoopTable

/-- The loop over the headers makes one loop for each of them. -/
theorem exists_buildLoops (table : LoopTable) (isGraph : table.toGenerator = graph.analyzed)
    (isBack : ∀ latch header, latch ∈ table.inBackEdges header ↔ IsBackEdge graph latch header)
    (noLoops : table.numLoops = 0) (fresh : table.Fresh) (enough : searchBound graph ≤ fuel) :
    ∃ built, (List.range graph.size).foldlM (buildLoop fuel) table = some built ∧
      built.Built graph ∧ built.Fresh := by
  have loop : ∃ built, (List.range graph.size).foldlM (buildLoop fuel) table = some built ∧
      built.Building graph table.inBackEdges (List.range graph.size) := by
    apply exists_foldlM (fun front (state : LoopTable) =>
      state.Building graph table.inBackEdges front)
    · intro front item back state split building
      apply building.buildLoop isBack _ enough
      have nodup := List.nodup_range (n := graph.size)
      rw [split] at nodup
      intro inside
      exact (List.nodup_append.mp nodup).2.2 item inside item List.mem_cons_self rfl
    · constructor
      · exact isGraph
      · rfl
      · intro id inRange
        exact absurd (noLoops ▸ inRange) (Nat.not_lt_zero id)
      · intro id inRange
        exact absurd (noLoops ▸ inRange) (Nat.not_lt_zero id)
      · intro header inside
        exact absurd inside List.not_mem_nil
      · exact fresh
  rcases loop with ⟨built, returns, building⟩
  refine ⟨built, returns, ?_, building.fresh⟩
  constructor
  · exact building.isGraph
  · exact fun id inRange => (building.loops id inRange).1
  · exact building.injective
  · intro header isHeader
    exact building.complete header
      (List.mem_range.mpr (ControlFlowGraph.lt_of_reachable isHeader.reachable)) isHeader

/-- The loops of two tables are the same but for their place in the nesting. -/
structure SameLoops (left right : LoopTable) : Prop where
  isGraph : left.toGenerator = right.toGenerator
  numLoops : left.numLoops = right.numLoops
  header : ∀ id, (left.loop id).header = (right.loop id).header
  latches : ∀ id, (left.loop id).latches = (right.loop id).latches
  blocks : ∀ id, (left.loop id).blocks = (right.loop id).blocks
  exits : ∀ id, (left.loop id).exits = (right.loop id).exits

variable {left middle right : LoopTable}

theorem SameLoops.refl (table : LoopTable) : table.SameLoops table :=
  ⟨rfl, rfl, fun _ => rfl, fun _ => rfl, fun _ => rfl, fun _ => rfl⟩

theorem SameLoops.trans (first : left.SameLoops middle) (second : middle.SameLoops right) :
    left.SameLoops right where
  isGraph := first.isGraph.trans second.isGraph
  numLoops := first.numLoops.trans second.numLoops
  header := fun id => (first.header id).trans (second.header id)
  latches := fun id => (first.latches id).trans (second.latches id)
  blocks := fun id => (first.blocks id).trans (second.blocks id)
  exits := fun id => (first.exits id).trans (second.exits id)

theorem SameLoops.blocksOf (same : left.SameLoops right) : left.blocksOf = right.blocksOf :=
  funext same.blocks

theorem Built.congr (built : right.Built graph) (same : left.SameLoops right) :
    left.Built graph := by
  constructor
  · rw [same.isGraph, built.isGraph]
  · intro id inRange
    have before := built.loops id (same.numLoops ▸ inRange)
    constructor
    · rw [same.header]
      exact before.isHeader
    · rw [same.header, same.latches]
      exact before.latches
    · rw [same.header, same.blocks]
      exact before.blocks
    · rw [same.blocks, same.exits]
      exact before.exits
  · rw [same.numLoops]
    simp only [same.header]
    exact built.injective
  · rw [same.numLoops]
    simp only [same.header]
    exact built.complete

theorem loop_modifyLoop (id other : Nat) (change : LoopInfo → LoopInfo) :
    (table.modifyLoop id change).loop other =
      if other = id then change (table.loop id) else table.loop other :=
  Function.update_apply _ _ _ _

theorem sameLoops_modifyLoop (id : Nat) {change : LoopInfo → LoopInfo}
    (keeps : ∀ loop, (change loop).header = loop.header ∧ (change loop).latches = loop.latches ∧
      (change loop).blocks = loop.blocks ∧ (change loop).exits = loop.exits) :
    (table.modifyLoop id change).SameLoops table := by
  have split : ∀ other, (table.modifyLoop id change).loop other = table.loop other ∨
      (table.modifyLoop id change).loop other = change (table.loop other) := by
    intro other
    rw [loop_modifyLoop]
    by_cases same : other = id
    · rw [if_pos same, same]
      exact Or.inr rfl
    · rw [if_neg same]
      exact Or.inl rfl
  constructor
  · rfl
  · rfl
  all_goals
    intro other
    cases split other with
    | inl same => rw [same]
    | inr changed => rw [changed]; simp only [keeps]

/-! ## Parents -/

/-- A smallest loop strictly around another one. -/
def IsSmallestAround (table : LoopTable) (id parent : Nat) : Prop :=
  parent < table.numLoops ∧ table.blocksOf id ⊂ table.blocksOf parent ∧
    ∀ other < table.numLoops, table.blocksOf id ⊂ table.blocksOf other →
      (table.blocksOf parent).card ≤ (table.blocksOf other).card

/-- The best of the candidates so far. -/
def BestParent (table : LoopTable) (id : Nat) (front : List Nat) : Option (Nat × Nat) → Prop
  | none => ∀ other ∈ front, ¬ table.blocksOf id ⊂ table.blocksOf other
  | some (parent, size) =>
    parent ∈ front ∧ table.blocksOf id ⊂ table.blocksOf parent ∧
      size = (table.blocksOf parent).card ∧
      ∀ other ∈ front, table.blocksOf id ⊂ table.blocksOf other → size ≤ (table.blocksOf other).card

theorem loopContainsLoop_iff {outer inner : LoopInfo} :
    loopContainsLoop outer inner = true ↔ inner.blocks ⊂ outer.blocks := by
  rw [loopContainsLoop, Bool.and_eq_true, decide_eq_true_eq, decide_eq_true_eq]
  constructor
  · intro contains
    exact contains.2.ssubset_of_ne fun same => Nat.ne_of_lt contains.1 (congrArg _ same)
  · intro contains
    exact ⟨Finset.card_lt_card contains, contains.subset⟩

theorem BestParent.consider {id candidate : Nat} {best : Option (Nat × Nat)} {front : List Nat}
    (holds : table.BestParent id front best) :
    table.BestParent id (front ++ [candidate]) (table.considerParent id best candidate) := by
  rw [considerParent]
  by_cases contains : table.blocksOf id ⊂ table.blocksOf candidate
  · have notSelf : (candidate == id) = false := by
      rw [beq_eq_false_iff_ne]
      intro same
      rw [same] at contains
      exact contains.2 (Finset.Subset.refl _)
    rw [notSelf, loopContainsLoop_iff.mpr contains]
    cases best with
    | none =>
      refine ⟨List.mem_append_right _ (List.mem_singleton_self _), contains, rfl, ?_⟩
      intro other inside around
      cases List.mem_append.mp inside with
      | inl before => exact absurd around (holds other before)
      | inr last => rw [List.mem_singleton.mp last]; exact Nat.le_refl _
    | some found =>
      rcases found with ⟨parent, size⟩
      rcases holds with ⟨isParent, around, isSize, smallest⟩
      simp only [Option.all_some, decide_eq_true_eq]
      by_cases smaller : (table.loop candidate).blocks.card < size
      · rw [if_pos smaller]
        refine ⟨List.mem_append_right _ (List.mem_singleton_self _), contains, rfl, ?_⟩
        intro other inside around
        cases List.mem_append.mp inside with
        | inl before => exact (Nat.le_of_lt smaller).trans (smallest other before around)
        | inr last => rw [List.mem_singleton.mp last]; exact Nat.le_refl _
      · rw [if_neg smaller]
        refine ⟨List.mem_append_left _ isParent, around, isSize, ?_⟩
        intro other inside around
        cases List.mem_append.mp inside with
        | inl before => exact smallest other before around
        | inr last => rw [List.mem_singleton.mp last]; exact Nat.not_lt.mp smaller
  · have notContains : loopContainsLoop (table.loop candidate) (table.loop id) = false := by
      rw [← Bool.not_eq_true, loopContainsLoop_iff]
      exact contains
    rw [notContains]
    simp only [Bool.not_false, Bool.or_true, if_true]
    cases best with
    | none =>
      intro other inside
      cases List.mem_append.mp inside with
      | inl before => exact holds other before
      | inr last => rw [List.mem_singleton.mp last]; exact contains
    | some found =>
      rcases holds with ⟨isParent, around, isSize, smallest⟩
      refine ⟨List.mem_append_left _ isParent, around, isSize, ?_⟩
      intro other inside otherAround
      cases List.mem_append.mp inside with
      | inl before => exact smallest other before otherAround
      | inr last =>
        rw [List.mem_singleton.mp last] at otherAround
        exact absurd otherAround contains

/-- The result of the loop over the candidates. -/
def bestParent (table : LoopTable) (id : Nat) : Option (Nat × Nat) :=
  (List.range table.numLoops).foldl (table.considerParent id) none

/-- The loop over the candidates finds the best of all. -/
theorem bestParent_spec (table : LoopTable) (id : Nat) :
    table.BestParent id (List.range table.numLoops) (table.bestParent id) := by
  apply foldl_induct (fun front best => table.BestParent id front best)
  · intro front item back best _ holds
    exact holds.consider
  · intro other inside
    exact absurd inside List.not_mem_nil

theorem bestParent_congr (same : left.SameLoops right) (id : Nat) :
    left.bestParent id = right.bestParent id := by
  rw [bestParent, bestParent, same.numLoops]
  congr 1
  funext best candidate
  have contains : loopContainsLoop (left.loop candidate) (left.loop id) =
      loopContainsLoop (right.loop candidate) (right.loop id) := by
    rw [Bool.eq_iff_iff, loopContainsLoop_iff, loopContainsLoop_iff, same.blocks, same.blocks]
  rw [considerParent, considerParent, contains, same.blocks]

/-- The parents of the loops are set. -/
structure Parented (table : LoopTable) : Prop where
  smallest : ∀ id < table.numLoops, ∀ parent, (table.loop id).parent = some parent →
    table.IsSmallestAround id parent
  outermost : ∀ id < table.numLoops, (table.loop id).parent = none →
    ∀ other < table.numLoops, ¬ table.blocksOf id ⊂ table.blocksOf other
  children : ∀ parent child, child ∈ (table.loop parent).children ↔
    child < table.numLoops ∧ (table.loop child).parent = some parent

/-- The parents of the first loops are set. -/
structure Parenting (base : LoopTable) (front : List Nat) (table : LoopTable) : Prop where
  same : table.SameLoops base
  unset : ∀ id, id ∉ front → (table.loop id).parent = none
  isSet : ∀ id ∈ front, (table.loop id).parent = (base.bestParent id).map Prod.fst
  children : ∀ parent child, child ∈ (table.loop parent).children ↔
    child ∈ front ∧ (table.loop child).parent = some parent
  unplaced : table.Unplaced

theorem Parenting.setParent {base : LoopTable} {id : Nat} {front : List Nat}
    (holds : Parenting base front table) (isNew : id ∉ front) :
    Parenting base (front ++ [id]) (table.setParent id) := by
  have isBest : (List.range table.numLoops).foldl (table.considerParent id) none =
      base.bestParent id := bestParent_congr holds.same id
  have spec := base.bestParent_spec id
  have unset := holds.unset id isNew
  rw [LoopTable.setParent, isBest]
  cases best : base.bestParent id with
  | none =>
    refine ⟨holds.same, ?_, ?_, ?_, holds.unplaced⟩
    · intro other outside
      exact holds.unset other fun inside => outside (List.mem_append_left _ inside)
    · intro other inside
      cases List.mem_append.mp inside with
      | inl before => exact holds.isSet other before
      | inr last =>
        rw [List.mem_singleton.mp last, unset, best]
        rfl
    · intro parent child
      rw [holds.children, List.mem_append, List.mem_singleton]
      grind
  | some found =>
    rcases found with ⟨parent, size⟩
    rw [best] at spec
    have apart : parent ≠ id := by
      intro same
      have strict := spec.2.1
      rw [same] at strict
      exact strict.2 (Finset.Subset.refl _)
    have loopEq : ∀ other, (((table.modifyLoop id fun loop =>
          { loop with parent := some parent }).modifyLoop parent fun loop =>
          { loop with children := loop.children ++ [id] }).loop other) =
        { table.loop other with
          parent := if other = id then some parent else (table.loop other).parent
          children := if other = parent then (table.loop other).children ++ [id]
            else (table.loop other).children } := by
      intro other
      rw [loop_modifyLoop, loop_modifyLoop, loop_modifyLoop]
      by_cases isParent : other = parent
      · simp [isParent, apart]
      · by_cases isChild : other = id
        · simp [isChild, apart.symm]
        · simp [isParent, isChild]
    refine ⟨?_, ?_, ?_, ?_, ?_⟩
    · refine SameLoops.trans (sameLoops_modifyLoop _ fun loop => ⟨rfl, rfl, rfl, rfl⟩)
        (SameLoops.trans (sameLoops_modifyLoop _ fun loop => ⟨rfl, rfl, rfl, rfl⟩) holds.same)
    · intro other outside
      have notNew : other ≠ id := by
        intro same
        exact outside (List.mem_append_right _ (List.mem_singleton.mpr same))
      rw [loopEq]
      rw [if_neg notNew]
      exact holds.unset other fun inside => outside (List.mem_append_left _ inside)
    · intro other inside
      rw [loopEq]
      by_cases isChild : other = id
      · rw [if_pos isChild, isChild, best]
        rfl
      · rw [if_neg isChild]
        apply holds.isSet
        exact (List.mem_append.mp inside).resolve_right fun last =>
          isChild (List.mem_singleton.mp last)
    · intro above child
      have before := holds.children above child
      simp only [loopEq, List.mem_append, List.mem_singleton]
      by_cases isParent : above = parent
      · rw [if_pos isParent, List.mem_append, before, List.mem_singleton]
        grind
      · rw [if_neg isParent, before]
        grind
    · refine ⟨?_, ?_, holds.unplaced.innermostLoop, holds.unplaced.loopNesting⟩
      · intro other
        rw [loopEq]
        exact holds.unplaced.depth other
      · intro other
        rw [loopEq]
        exact holds.unplaced.preheader other

theorem foldl_setParent_spec (fresh : table.Fresh) :
    ((List.range table.numLoops).foldl setParent table).SameLoops table ∧
      ((List.range table.numLoops).foldl setParent table).Parented ∧
      ((List.range table.numLoops).foldl setParent table).Unplaced := by
  have parenting : Parenting table (List.range table.numLoops)
      ((List.range table.numLoops).foldl setParent table) := by
    apply foldl_induct (fun front state => Parenting table front state)
    · intro front item back state split holds
      apply holds.setParent
      have nodup := List.nodup_range (n := table.numLoops)
      rw [split] at nodup
      intro inside
      exact (List.nodup_append.mp nodup).2.2 item inside item List.mem_cons_self rfl
    · refine ⟨SameLoops.refl table, fun id _ => fresh.parent id, ?_, ?_, fresh.toUnplaced⟩
      · intro id inside
        exact absurd inside List.not_mem_nil
      · intro parent child
        rw [fresh.children]
        simp
  refine ⟨parenting.same, ?_, parenting.unplaced⟩
  have numLoops := parenting.same.numLoops
  have blocksOf := parenting.same.blocksOf
  constructor
  · intro id inRange parent isParent
    rw [numLoops] at inRange
    rw [parenting.isSet id (List.mem_range.mpr inRange)] at isParent
    have spec := table.bestParent_spec id
    rw [IsSmallestAround, numLoops, blocksOf]
    cases best : table.bestParent id with
    | none =>
      rw [best] at isParent
      cases isParent
    | some found =>
      rw [best] at isParent spec
      cases isParent
      refine ⟨List.mem_range.mp spec.1, spec.2.1, ?_⟩
      intro other otherInRange around
      rw [← spec.2.2.1]
      exact spec.2.2.2 other (List.mem_range.mpr otherInRange) around
  · intro id inRange isNone
    rw [numLoops] at inRange
    rw [parenting.isSet id (List.mem_range.mpr inRange), Option.map_eq_none_iff] at isNone
    have spec := table.bestParent_spec id
    rw [isNone] at spec
    rw [numLoops, blocksOf]
    intro other otherInRange
    exact spec other (List.mem_range.mpr otherInRange)
  · intro parent child
    rw [parenting.children, List.mem_range, numLoops]

end LoopTable

end DaveCC.Optimization
