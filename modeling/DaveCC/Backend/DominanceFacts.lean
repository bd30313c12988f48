import DaveCC.Backend.ImmediateDominators

/-!
# The facts about a control-flow graph

What the analysis is for: the dominators of every block, its immediate dominator, its
place in the dominator tree and its dominance frontier, as the graph alone determines
them. The blocks that carry these facts are `ControlFlowGraph.analyzed`.
-/

namespace DaveCC.Backend

open DaveCC.Graph

namespace Generator

/-- The generator with the given blocks in place of its own. -/
def mapBlocks (gen : Generator) (data : BlockId → BasicBlock) : Generator :=
  { gen with basicBlocks := (List.range gen.basicBlocks.length).map data }

@[simp] theorem length_mapBlocks (gen : Generator) (data : BlockId → BasicBlock) :
    (gen.mapBlocks data).basicBlocks.length = gen.basicBlocks.length := by
  simp [mapBlocks]

@[simp] theorem entryBlock_mapBlocks (gen : Generator) (data : BlockId → BasicBlock) :
    (gen.mapBlocks data).entryBlock = gen.entryBlock := rfl

variable {gen : Generator}

theorem block_mapBlocks {data : BlockId → BasicBlock} {id : BlockId}
    (inRange : id < gen.basicBlocks.length) : (gen.mapBlocks data).block id = data id := by
  rw [block_eq_getElem (by rwa [length_mapBlocks])]
  simp [mapBlocks]

theorem mapBlocks_congr {first second : BlockId → BasicBlock}
    (agree : ∀ id < gen.basicBlocks.length, first id = second id) :
    gen.mapBlocks first = gen.mapBlocks second := by
  simp only [mapBlocks]
  congr 1
  apply List.map_congr_left
  intro id member
  exact agree id (List.mem_range.mp member)

@[simp] theorem mapBlocks_mapBlocks (gen : Generator) (first second : BlockId → BasicBlock) :
    (gen.mapBlocks first).mapBlocks second = gen.mapBlocks second := by
  simp [mapBlocks]

theorem mapBlocks_block (gen : Generator) : gen.mapBlocks gen.block = gen := by
  have same : (List.range gen.basicBlocks.length).map gen.block = gen.basicBlocks := by
    apply List.ext_getElem
    · rw [List.length_map, List.length_range]
    · intro id _ inRange
      rw [List.getElem_map, List.getElem_range, block_eq_getElem inRange]
  simp only [mapBlocks, same]

theorem modifyBlock_mapBlocks (gen : Generator) (data : BlockId → BasicBlock) (id : BlockId)
    (change : BasicBlock → BasicBlock) :
    (gen.mapBlocks data).modifyBlock id change =
      gen.mapBlocks (Function.update data id (change (data id))) := by
  simp only [mapBlocks, modifyBlock]
  congr 1
  apply List.ext_getElem
  · simp
  · intro position _ _
    simp only [List.getElem_modify, List.getElem_map, List.getElem_range]
    by_cases same : id = position
    · rw [if_pos same, ← same, Function.update_self]
    · rw [if_neg same, Function.update_of_ne (Ne.symm same)]

end Generator

namespace ControlFlowGraph

variable (graph : ControlFlowGraph)

open Classical in
/-- The blocks on every walk from the entry to a reachable block. -/
noncomputable def dominatorSet (id : BlockId) : Finset BlockId :=
  (Finset.range graph.size).filter fun dominator => graph.Dominates dominator id

open Classical in
noncomputable def immediateDominator (id : BlockId) : Option BlockId :=
  if has : ∃ dominator, graph.ImmediatelyDominates dominator id then some has.choose else none

open Classical in
/-- The join blocks, those with two in edges or more, in the dominance frontier. -/
noncomputable def frontierSet (id : BlockId) : Finset BlockId :=
  (Finset.range graph.size).filter fun join =>
    (graph.gen.block join).inEdges.length ≥ 2 ∧ InFrontier graph.gen.Edge graph.entry id join

/-- The children in the dominator tree, in the order of the blocks. -/
noncomputable def children (id : BlockId) : List BlockId :=
  (List.range graph.size).filter fun child => graph.immediateDominator child == some id

open Classical in
/-- A block with the facts about dominators recorded in it. -/
noncomputable def withDominators (id : BlockId) : BasicBlock :=
  { graph.gen.block id with
    dominators := graph.dominatorSet id
    numDominators := (graph.dominatorSet id).card
    idom := graph.immediateDominator id
    reachabilityKnown := true
    isUnreachable := decide (¬ graph.Reachable id) }

/-- The graph with every fact recorded in its blocks. -/
noncomputable def analyzed : Generator :=
  graph.gen.mapBlocks fun id =>
    { graph.withDominators id with
      dominatees := graph.children id
      dominanceFrontier := graph.frontierSet id }

variable {graph} {id dominator join : BlockId}

@[simp] theorem mem_dominatorSet :
    dominator ∈ graph.dominatorSet id ↔ graph.Dominates dominator id := by
  simp only [dominatorSet, Finset.mem_filter, Finset.mem_range]
  constructor
  · exact And.right
  · exact fun dominates => ⟨lt_of_dominates dominates, dominates⟩

theorem dominatorSet_of_unreachable (unreachable : ¬ graph.Reachable id) :
    graph.dominatorSet id = ∅ := by
  apply Finset.eq_empty_of_forall_notMem
  intro dominator member
  exact unreachable (mem_dominatorSet.mp member).1

theorem immediateDominator_eq_some_iff :
    graph.immediateDominator id = some dominator ↔
      graph.ImmediatelyDominates dominator id := by
  by_cases has : ∃ dominator, graph.ImmediatelyDominates dominator id
  · simp only [immediateDominator, has, dif_pos, Option.some_inj]
    constructor
    · rintro rfl
      exact has.choose_spec
    · exact has.choose_spec.unique
  · simp only [immediateDominator, has, dif_neg, not_false_eq_true, reduceCtorEq, false_iff]
    exact fun immediate => has ⟨dominator, immediate⟩

theorem immediateDominator_of_unreachable (unreachable : ¬ graph.Reachable id) :
    graph.immediateDominator id = none := by
  rw [Option.eq_none_iff_forall_ne_some]
  intro dominator isDominator
  exact unreachable (immediateDominator_eq_some_iff.mp isDominator).1.1.1

theorem immediateDominator_entry : graph.immediateDominator graph.entry = none := by
  rw [Option.eq_none_iff_forall_ne_some]
  intro dominator isDominator
  exact ImmediatelyDominates.not_entry (immediateDominator_eq_some_iff.mp isDominator)

/-- Every reachable block but the entry has an immediate dominator. -/
theorem exists_immediatelyDominates (reached : graph.Reachable id)
    (notEntry : id ≠ graph.entry) : ∃ dominator, graph.ImmediatelyDominates dominator id := by
  rcases Generator.exists_computeReversePostorder graph (Nat.le_refl _) with
    ⟨search, _, isPostorder, _⟩
  rcases exists_computeIdoms isPostorder (Nat.le_refl _) with ⟨idoms, _, fixed⟩
  rcases fixed.processed reached with ⟨parent, isParent⟩
  exact ⟨parent, fixed.immediatelyDominates notEntry isParent⟩

theorem eq_entry_of_immediateDominator_eq_none (reached : graph.Reachable id)
    (isNone : graph.immediateDominator id = none) : id = graph.entry := by
  by_contra notEntry
  rcases exists_immediatelyDominates reached notEntry with ⟨dominator, immediate⟩
  rw [immediateDominator_eq_some_iff.mpr immediate] at isNone
  cases isNone

@[simp] theorem mem_frontierSet :
    join ∈ graph.frontierSet id ↔ (graph.gen.block join).inEdges.length ≥ 2 ∧
      InFrontier graph.gen.Edge graph.entry id join := by
  simp only [frontierSet, Finset.mem_filter, Finset.mem_range]
  constructor
  · exact And.right
  · rintro ⟨isJoin, inFrontier⟩
    rcases inFrontier.1 with ⟨_, follows, _⟩
    exact ⟨target_lt follows, isJoin, inFrontier⟩

@[simp] theorem mem_children {child : BlockId} :
    child ∈ graph.children id ↔ graph.ImmediatelyDominates id child := by
  simp only [children, List.mem_filter, List.mem_range, beq_iff_eq, immediateDominator_eq_some_iff]
  constructor
  · exact And.right
  · exact fun immediate => ⟨lt_of_reachable immediate.1.1.1, immediate⟩

/-! ## Climbing the dominator tree -/

/-- The blocks passed on the way up from `start` when the climb has come to `runner`. -/
def Climbed (graph : ControlFlowGraph) (start : BlockId) (runner : Option BlockId)
    (block : BlockId) : Prop :=
  graph.Dominates block start ∧ ∀ current, runner = some current → ¬ graph.Dominates block current

theorem not_climbed_start (start block : BlockId) : ¬ graph.Climbed start (some start) block :=
  fun climbed => climbed.2 start rfl climbed.1

variable {runner : BlockId}

/-- A step up the tree passes the one block it leaves. -/
theorem climbed_step {start : BlockId} (onWay : graph.Dominates runner start) (block : BlockId) :
    graph.Climbed start (graph.immediateDominator runner) block ↔
      block = runner ∨ graph.Climbed start (some runner) block := by
  have below : ∀ current, graph.immediateDominator runner = some current →
      (graph.Dominates block runner ↔ block = runner ∨ graph.Dominates block current) := by
    intro current isUp
    have immediate := immediateDominator_eq_some_iff.mp isUp
    have strict : graph.StrictlyDominates block runner ↔ graph.Dominates block current :=
      immediate.strictlyDominates_iff
    constructor
    · intro dominates
      by_cases same : block = runner
      · exact Or.inl same
      · exact Or.inr (strict.mp ⟨dominates, same⟩)
    · rintro (rfl | above)
      · exact Dominates.refl onWay.reachable
      · exact (strict.mpr above).1
  constructor
  · rintro ⟨dominates, notAbove⟩
    by_cases same : block = runner
    · exact Or.inl same
    · refine Or.inr ⟨dominates, ?_⟩
      rintro current isRunner dominatesRunner
      obtain rfl := Option.some_inj.mp isRunner
      cases isUp : graph.immediateDominator runner with
      | none =>
        have atEntry := eq_entry_of_immediateDominator_eq_none onWay.reachable isUp
        rw [atEntry] at dominatesRunner same
        exact same (dominates_entry_iff.mp dominatesRunner)
      | some up =>
        rcases (below up isUp).mp dominatesRunner with isSame | above
        · exact same isSame
        · exact notAbove up isUp above
  · rintro (rfl | ⟨dominates, notRunner⟩)
    · refine ⟨onWay, ?_⟩
      intro current isUp above
      have immediate := immediateDominator_eq_some_iff.mp isUp
      exact immediate.1.2 (immediate.1.1.antisymm above)
    · refine ⟨dominates, ?_⟩
      intro current isUp above
      exact notRunner runner rfl ((below current isUp).mpr (Or.inr above))

/-- The number of blocks still above a climb. -/
noncomputable def height (graph : ControlFlowGraph) : Option BlockId → Nat
  | none => 0
  | some runner => (graph.dominatorSet runner).card

theorem height_le (runner : Option BlockId) : graph.height runner ≤ graph.size := by
  cases runner with
  | none => exact Nat.zero_le _
  | some runner =>
    have bounded : graph.dominatorSet runner ⊆ Finset.range graph.size := by
      intro dominator member
      exact Finset.mem_range.mpr (lt_of_dominates (mem_dominatorSet.mp member))
    have := Finset.card_le_card bounded
    rwa [Finset.card_range] at this

theorem height_lt (reached : graph.Reachable runner) :
    graph.height (graph.immediateDominator runner) < graph.height (some runner) := by
  have member : runner ∈ graph.dominatorSet runner :=
    mem_dominatorSet.mpr (Dominates.refl reached)
  cases isUp : graph.immediateDominator runner with
  | none => exact Finset.card_pos.mpr ⟨runner, member⟩
  | some up =>
    have immediate := immediateDominator_eq_some_iff.mp isUp
    apply Finset.card_lt_card
    rw [Finset.ssubset_iff_of_subset]
    · refine ⟨runner, member, ?_⟩
      intro above
      exact immediate.1.2 (immediate.1.1.antisymm (mem_dominatorSet.mp above))
    · intro dominator isAbove
      rw [mem_dominatorSet] at isAbove ⊢
      exact isAbove.trans immediate.1.1

end ControlFlowGraph

end DaveCC.Backend
