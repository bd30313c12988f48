import DaveCC.Backend.DominanceFacts

/-!
# The stages of the control-flow analysis

The stages of `AnalyzeCFG` record the facts that the graph determines. Both paths of
`CalculateDominators` end in the same blocks, and the frontier runners add the joins of the
dominance frontier.
-/

namespace DaveCC.Backend

open DaveCC.Graph DaveCC.Loop Generator

namespace ControlFlowGraph

variable {graph : ControlFlowGraph} {id : BlockId} {fuel : Nat}

/-- The loop over all blocks comes to them in order. -/
theorem range_split {size : Nat} {front back : List BlockId}
    (split : List.range size = front ++ id :: back) : id = front.length ∧ id < size := by
  have inRange : front.length < (List.range size).length := by
    rw [split, List.length_append, List.length_cons]
    omega
  have isItem : (List.range size)[front.length] = id := by
    simp [split]
  rw [List.getElem_range] at isItem
  rw [List.length_range] at inRange
  exact ⟨isItem.symm, isItem ▸ inRange⟩

section SinglePredecessor

variable {predecessor : BlockId}

section

variable (inEdges : (graph.gen.block id).inEdges = [predecessor]) (notEntry : id ≠ graph.entry)

include inEdges notEntry

theorem reachable_iff_of_single : graph.Reachable id ↔ graph.Reachable predecessor := by
  have single : ∀ other, graph.gen.Edge other id ↔ other = predecessor := by
    intro other
    rw [edge_iff_mem_inEdges, inEdges, List.mem_singleton]
  constructor
  · intro reached
    rcases reached.exists_predecessor notEntry with ⟨other, follows, otherReached⟩
    rwa [(single other).mp follows] at otherReached
  · intro reached
    exact reached.step ((single predecessor).mpr rfl)

theorem dominates_iff_of_single (reached : graph.Reachable predecessor) (dominator : BlockId) :
    graph.Dominates dominator id ↔ dominator = id ∨ graph.Dominates dominator predecessor := by
  have single : ∀ other, graph.gen.Edge other id ↔ other = predecessor := by
    intro other
    rw [edge_iff_mem_inEdges, inEdges, List.mem_singleton]
  exact dominates_iff_of_single_predecessor reached ((single predecessor).mpr rfl) notEntry
    fun other follows => (single other).mp follows

theorem dominatorSet_of_single (reached : graph.Reachable predecessor) :
    graph.dominatorSet id = insert id (graph.dominatorSet predecessor) := by
  ext dominator
  rw [Finset.mem_insert, mem_dominatorSet, mem_dominatorSet,
    dominates_iff_of_single inEdges notEntry reached]

theorem immediateDominator_of_single (reached : graph.Reachable predecessor)
    (earlier : predecessor < id) : graph.immediateDominator id = some predecessor := by
  have isDominator := dominates_iff_of_single inEdges notEntry reached
  rw [immediateDominator_eq_some_iff]
  refine ⟨⟨(isDominator predecessor).mpr (Or.inr (Dominates.refl reached)),
    Nat.ne_of_lt earlier⟩, ?_⟩
  rintro other ⟨dominates, different⟩
  exact ((isDominator other).mp dominates).resolve_left different

end

end SinglePredecessor

theorem dominatorSet_entry : graph.dominatorSet graph.entry = {graph.entry} := by
  ext dominator
  rw [mem_dominatorSet, Finset.mem_singleton]
  exact dominates_entry_iff

/-- The generator when the loop over the blocks has recorded the dominators of the
first `count`. -/
noncomputable def withDominatorsBefore (graph : ControlFlowGraph) (count : Nat) : Generator :=
  graph.gen.mapBlocks fun id =>
    if id < count then graph.withDominators id else graph.gen.block id

theorem withDominatorsBefore_zero : graph.withDominatorsBefore 0 = graph.gen := by
  exact graph.gen.mapBlocks_block

theorem withDominatorsBefore_size :
    graph.withDominatorsBefore graph.size = graph.gen.mapBlocks graph.withDominators := by
  apply mapBlocks_congr
  intro id inRange
  rw [if_pos inRange]

/-- Recording the dominators of the next block. -/
theorem withDominatorsBefore_succ :
    graph.withDominatorsBefore (id + 1) =
      graph.gen.mapBlocks (Function.update
        (fun other => if other < id then graph.withDominators other else graph.gen.block other)
        id (graph.withDominators id)) := by
  apply mapBlocks_congr
  intro other _
  by_cases same : other = id
  · rw [same, Function.update_self, if_pos (Nat.lt_succ_self id)]
  · rw [Function.update_of_ne same]
    by_cases before : other < id
    · rw [if_pos before, if_pos (Nat.lt_succ_of_lt before)]
    · have : ¬ other < id + 1 := by
        intro bound
        exact same (Nat.le_antisymm (Nat.lt_succ_iff.mp bound) (Nat.not_lt.mp before))
      rw [if_neg before, if_neg this]

theorem isForward_of_mem (isForward : graph.gen.hasForwardSinglePredecessorCFG = true)
    (inRange : id < graph.size) (notEntry : id ≠ graph.entry) :
    (graph.gen.block id).inEdges = [] ∨
      ∃ predecessor, (graph.gen.block id).inEdges = [predecessor] ∧ predecessor < id := by
  simp only [hasForwardSinglePredecessorCFG, List.all_eq_true, List.mem_range] at isForward
  have atId := isForward id inRange
  simp only [beq_iff_eq, notEntry, if_false] at atId
  split at atId
  · exact Or.inl ‹_›
  · exact Or.inr ⟨_, ‹_›, of_decide_eq_true atId⟩
  · cases atId

/-- A block with cleared facts. -/
def cleared (data : BasicBlock) (unreachable : Bool) : BasicBlock :=
  { data with
    dominators := ∅, idom := none, numDominators := 0, reachabilityKnown := true
    isUnreachable := unreachable }

theorem clearDominators_mapBlocks (gen : Generator) (data : BlockId → BasicBlock)
    (id : BlockId) (unreachable : Bool) :
    (gen.mapBlocks data).clearDominators id unreachable =
      gen.mapBlocks (Function.update data id (cleared (data id) unreachable)) :=
  modifyBlock_mapBlocks ..

section Steps

variable {gen : Generator} {data : BlockId → BasicBlock}

theorem inheritDominators_of_not_single (inRange : id < gen.basicBlocks.length)
    (noEdges : (data id).inEdges = []) :
    (gen.mapBlocks data).inheritDominators id = gen.mapBlocks data := by
  simp only [inheritDominators, block_mapBlocks inRange, noEdges]

theorem inheritDominators_of_unreachable {predecessor : BlockId}
    (inRange : id < gen.basicBlocks.length) (inEdges : (data id).inEdges = [predecessor])
    (predecessorInRange : predecessor < gen.basicBlocks.length)
    (unreachable : (data predecessor).isUnreachable = true) :
    (gen.mapBlocks data).inheritDominators id = gen.mapBlocks data := by
  simp [inheritDominators, block_mapBlocks inRange, inEdges, block_mapBlocks predecessorInRange, unreachable]

theorem inheritDominators_of_entry (isEntry : id = gen.entryBlock) :
    (gen.mapBlocks data).inheritDominators id = gen.mapBlocks data := by
  have noEdge : (id != (gen.mapBlocks data).entryBlock) = false := by
    rw [bne_eq_false_iff_eq]
    exact isEntry
  rw [inheritDominators, noEdge]
  split <;> rfl

theorem inheritDominators_of_reachable {predecessor : BlockId}
    (inRange : id < gen.basicBlocks.length) (inEdges : (data id).inEdges = [predecessor])
    (predecessorInRange : predecessor < gen.basicBlocks.length)
    (reachable : (data predecessor).isUnreachable = false) (notEntry : id ≠ gen.entryBlock) :
    (gen.mapBlocks data).inheritDominators id =
      gen.mapBlocks (Function.update data id
        { data id with
          dominators := (data predecessor).dominators
          idom := some predecessor
          isUnreachable := false }) := by
  simp only [inheritDominators, block_mapBlocks inRange, inEdges, block_mapBlocks
    predecessorInRange, reachable, entryBlock_mapBlocks, bne_iff_ne.mpr notEntry, Bool.not_false,
    Bool.and_true, if_true, modifyBlock_mapBlocks]

theorem insertSelf_of_unreachable (inRange : id < gen.basicBlocks.length)
    (unreachable : (data id).isUnreachable = true) :
    (gen.mapBlocks data).insertSelf id = gen.mapBlocks data := by
  simp [insertSelf, block_mapBlocks inRange, unreachable]

theorem insertSelf_of_reachable (inRange : id < gen.basicBlocks.length)
    (reachable : (data id).isUnreachable = false) :
    (gen.mapBlocks data).insertSelf id =
      gen.mapBlocks (Function.update data id
        { data id with
          dominators := insert id (data id).dominators
          numDominators := (insert id (data id).dominators).card }) := by
  simp [insertSelf, block_mapBlocks inRange, reachable, modifyBlock_mapBlocks]

end Steps

/-- What is recorded of an unreachable block is what clearing leaves. -/
theorem withDominators_of_unreachable (unreachable : ¬ graph.Reachable id) :
    graph.withDominators id = cleared (graph.gen.block id) true := by
  simp [withDominators, cleared, dominatorSet_of_unreachable unreachable, immediateDominator_of_unreachable unreachable, unreachable]

theorem forwardDominatorStep_eq (isForward : graph.gen.hasForwardSinglePredecessorCFG = true)
    (inRange : id < graph.size) :
    (graph.withDominatorsBefore id).forwardDominatorStep id =
      graph.withDominatorsBefore (id + 1) := by
  rw [withDominatorsBefore_succ, withDominatorsBefore, forwardDominatorStep,
    clearDominators_mapBlocks, entryBlock_mapBlocks, if_neg (Nat.lt_irrefl id)]
  by_cases atEntry : id = graph.entry
  · have noEdge : (id != graph.gen.entryBlock) = false := by
      rw [bne_eq_false_iff_eq]
      exact atEntry
    have recorded : graph.withDominators id =
        { cleared (graph.gen.block id) false with
          dominators := {id}, numDominators := 1 } := by
      simp only [withDominators, cleared, atEntry, dominatorSet_entry, Finset.card_singleton,
        immediateDominator_entry, Reachable.root, not_true_eq_false, decide_false]
    rw [inheritDominators_of_entry atEntry, noEdge, insertSelf_of_reachable inRange
      (by rw [Function.update_self]; rfl), Function.update_idem, Function.update_self, recorded]
    rfl
  · have isOther : (id != graph.gen.entryBlock) = true := bne_iff_ne.mpr atEntry
    rw [isOther]
    rcases isForward_of_mem isForward inRange atEntry with noEdges | ⟨predecessor, inEdges, earlier⟩
    · have unreachable : ¬ graph.Reachable id := by
        intro reached
        rcases reached.exists_predecessor atEntry with ⟨other, follows, _⟩
        rw [edge_iff_mem_inEdges, noEdges] at follows
        cases follows
      rw [inheritDominators_of_not_single inRange (by rw [Function.update_self]; exact noEdges),
          insertSelf_of_unreachable inRange (by rw [Function.update_self]; rfl),
          withDominators_of_unreachable unreachable]
    · have predecessorInRange := Nat.lt_trans earlier inRange
      have atPredecessor : ∀ block : BasicBlock,
          Function.update (fun other => if other < id then graph.withDominators other
            else graph.gen.block other) id block predecessor =
          graph.withDominators predecessor := by
        intro block
        rw [Function.update_of_ne (Nat.ne_of_lt earlier), if_pos earlier]
      have sameEdges : (cleared (graph.gen.block id) true).inEdges = [predecessor] := inEdges
      by_cases reached : graph.Reachable predecessor
      · have isReachable : (graph.withDominators predecessor).isUnreachable = false := by
          simp only [withDominators, reached, not_true_eq_false, decide_false]
        have recorded : graph.withDominators id =
            { cleared (graph.gen.block id) false with
              dominators := insert id (graph.dominatorSet predecessor)
              idom := some predecessor
              numDominators := (insert id (graph.dominatorSet predecessor)).card } := by
          simp only [withDominators, cleared, dominatorSet_of_single inEdges atEntry reached,
            immediateDominator_of_single inEdges atEntry reached earlier,
            reachable_iff_of_single inEdges atEntry, reached, not_true_eq_false, decide_false]
        rw [inheritDominators_of_reachable inRange (by rw [Function.update_self]; exact sameEdges)
            predecessorInRange (by rw [atPredecessor]; exact isReachable) atEntry,
            Function.update_idem, Function.update_self, atPredecessor, insertSelf_of_reachable
            inRange (by rw [Function.update_self]), Function.update_idem, Function.update_self,
            recorded]
        rfl
      · have isUnreachable : (graph.withDominators predecessor).isUnreachable = true := by
          simp only [withDominators, reached, not_false_eq_true, decide_true]
        have unreachable : ¬ graph.Reachable id := by
          rwa [reachable_iff_of_single inEdges atEntry]
        rw [inheritDominators_of_unreachable inRange (by rw [Function.update_self]; exact sameEdges)
            predecessorInRange (by rw [atPredecessor]; exact isUnreachable),
            insertSelf_of_unreachable inRange (by rw [Function.update_self]; rfl),
            withDominators_of_unreachable unreachable]

/-- The forward path records the dominators of every block. -/
theorem calculateForwardSinglePredecessorDominators_eq
    (isForward : graph.gen.hasForwardSinglePredecessorCFG = true) :
    graph.gen.calculateForwardSinglePredecessorDominators =
      graph.gen.mapBlocks graph.withDominators := by
  have steps : ∀ front id back gen, List.range graph.size = front ++ id :: back →
      gen = graph.withDominatorsBefore front.length →
      gen.forwardDominatorStep id = graph.withDominatorsBefore (front ++ [id]).length := by
    intro front id back gen split isGen
    rcases range_split split with ⟨isNext, inRange⟩
    rw [isGen, ← isNext, forwardDominatorStep_eq isForward inRange, List.length_append, ← isNext]
    rfl
  have final := foldl_induct (fun done gen => gen = graph.withDominatorsBefore done.length)
    steps withDominatorsBefore_zero.symm
  rw [List.length_range, withDominatorsBefore_size] at final
  exact final

section Intersection

variable {order : SearchOrder graph.gen.Edge graph.entry} {idoms : Idoms}

/-- The final loops read the immediate dominators off a fixed point. -/
theorem tentative_eq (fixed : IsFixedPoint order idoms) (reached : graph.Reachable id) :
    (if id = graph.entry then none else idoms id) = graph.immediateDominator id := by
  by_cases atEntry : id = graph.entry
  · rw [if_pos atEntry, atEntry, immediateDominator_entry]
  · rcases fixed.processed reached with ⟨parent, isParent⟩
    rw [if_neg atEntry, isParent]
    exact (immediateDominator_eq_some_iff.mpr (fixed.immediatelyDominates atEntry isParent)).symm

/-- The climb from a reachable block collects its dominators and counts them. -/
theorem materializeDominators_eq (fixed : IsFixedPoint order idoms) (reached : graph.Reachable id)
    (enough : graph.size ≤ fuel) {gen : Generator} (sameEntry : gen.entryBlock = graph.entry) :
    gen.materializeDominators fuel idoms id =
      some (graph.dominatorSet id, (graph.dominatorSet id).card) := by
  let Invariant : Option BlockId × Finset BlockId × Nat → Prop := fun state =>
    (∀ runner, state.1 = some runner → graph.Dominates runner id) ∧
      (∀ block, block ∈ state.2.1 ↔ graph.Climbed id state.1 block) ∧
      state.2.2 = state.2.1.card
  have steps : ∀ state : Option BlockId × Finset BlockId × Nat, Invariant state →
      state.1.isSome = true →
      ∃ next, (state.1.map fun dominator =>
          (if dominator = gen.entryBlock then none else idoms dominator,
            insert dominator state.2.1, state.2.2 + 1)) = some next ∧
        Invariant next ∧ graph.height next.1 < graph.height state.1 := by
    rintro ⟨runner, passed, count⟩ ⟨onWay, isPassed, isCount⟩ continues
    cases runner with
    | none => cases continues
    | some runner =>
      have dominates := onWay runner rfl
      have isUp : (if runner = gen.entryBlock then none else idoms runner) =
          graph.immediateDominator runner := by
        rw [sameEntry]
        exact tentative_eq fixed dominates.reachable
      refine ⟨_, rfl, ⟨?_, ?_, ?_⟩, ?_⟩
      · intro up isNext
        simp only [isUp] at isNext
        exact (immediateDominator_eq_some_iff.mp isNext).1.1.trans dominates
      · intro block
        simp [isUp, climbed_step dominates, isPassed]
      · have fresh : runner ∉ passed := by
          rw [isPassed]
          exact fun climbed => climbed.2 runner rfl (Dominates.refl dominates.reachable)
        rw [Finset.card_insert_of_notMem fresh, isCount]
      · simp only [isUp]
        exact height_lt dominates.reachable
  have start : Invariant (some id, ∅, 0) := by
    refine ⟨?_, ?_, Finset.card_empty.symm⟩
    · intro runner isRunner
      obtain rfl := Option.some_inj.mp isRunner
      exact Dominates.refl reached
    · intro block
      exact iff_of_false (Finset.notMem_empty block) (not_climbed_start id block)
  rcases exists_runWhile Invariant (fun state => graph.height state.1) steps start
    (Nat.le_trans (height_le _) enough) with ⟨⟨runner, passed, count⟩, returns, holds, stops⟩
  rcases holds with ⟨_, isPassed, isCount⟩
  simp only [Option.isSome_eq_false_iff, Option.isNone_iff_eq_none] at stops isPassed isCount
  have isAll : passed = graph.dominatorSet id := by
    ext block
    rw [isPassed, mem_dominatorSet, stops]
    constructor
    · exact And.left
    · exact fun dominates => ⟨dominates, fun _ isRunner => by cases isRunner⟩
  rw [materializeDominators, returns, isCount, isAll]
  rfl

theorem recordDominators_eq (fixed : IsFixedPoint order idoms) {reachable : Finset BlockId}
    (isReachable : ∀ id, id ∈ reachable ↔ graph.Reachable id) (enough : graph.size ≤ fuel) :
    (graph.withDominatorsBefore id).recordDominators fuel reachable idoms id =
      some (graph.withDominatorsBefore (id + 1)) := by
  rw [withDominatorsBefore_succ, withDominatorsBefore, recordDominators,
    clearDominators_mapBlocks, if_neg (Nat.lt_irrefl id)]
  by_cases reached : graph.Reachable id
  · have member : ¬ id ∉ reachable := not_not.mpr ((isReachable id).mpr reached)
    have recorded : graph.withDominators id =
        { cleared (graph.gen.block id) false with
          idom := graph.immediateDominator id
          dominators := graph.dominatorSet id
          numDominators := (graph.dominatorSet id).card } := by
      simp [withDominators, cleared, reached]
    rw [if_neg member, decide_eq_false member, materializeDominators_eq fixed reached enough
      (entryBlock_mapBlocks ..)]
    simp only [Option.bind_eq_bind, Option.bind_some, modifyBlock_mapBlocks, entryBlock_mapBlocks,
      Function.update_self, Function.update_idem, recorded]
    rw [← tentative_eq fixed reached]
    rfl
  · have notMember : id ∉ reachable := fun member => reached ((isReachable id).mp member)
    rw [if_pos notMember, decide_eq_true notMember, withDominators_of_unreachable reached]

end Intersection

/-- A bound on the iterations of every loop of the analysis. -/
def analysisBound (graph : ControlFlowGraph) : Nat :=
  (1 + PostorderSearch.unpushed graph ∅) + (graph.size * graph.size + 2 * graph.size + 1)

/-- The Cooper-Harvey-Kennedy path records the dominators of every block, too. -/
theorem calculateDominatorsByIntersection_eq (enough : graph.analysisBound ≤ fuel) :
    graph.gen.calculateDominatorsByIntersection fuel =
      some (graph.gen.mapBlocks graph.withDominators) := by
  rw [analysisBound] at enough
  rcases exists_computeReversePostorder graph
    (by omega : 1 + PostorderSearch.unpushed graph ∅ ≤ fuel) with
    ⟨search, searchReturns, isPostorder, isReachable⟩
  rcases exists_computeIdoms isPostorder
    (by omega : graph.size * graph.size + 2 * graph.size + 1 ≤ fuel) with
    ⟨idoms, idomsReturn, fixed⟩
  have steps : ∀ front id back gen, List.range graph.size = front ++ id :: back →
      gen = graph.withDominatorsBefore front.length →
      ∃ next, recordDominators fuel search.reachable idoms gen id = some next ∧
        next = graph.withDominatorsBefore (front ++ [id]).length := by
    intro front id back gen split isGen
    rcases range_split split with ⟨isNext, _⟩
    refine ⟨_, ?_, rfl⟩
    rw [isGen, ← isNext, recordDominators_eq fixed isReachable (by omega), List.length_append,
      ← isNext]
    rfl
  rcases exists_foldlM (fun done gen => gen = graph.withDominatorsBefore done.length)
    steps withDominatorsBefore_zero.symm with ⟨final, returns, isFinal⟩
  rw [List.length_range, withDominatorsBefore_size] at isFinal
  simp only [calculateDominatorsByIntersection, searchReturns, idomsReturn,
    Option.bind_eq_bind, Option.bind_some]
  rw [returns, isFinal]

theorem calculateDominators_eq (enough : graph.analysisBound ≤ fuel) :
    graph.gen.calculateDominators fuel = some (graph.gen.mapBlocks graph.withDominators) := by
  rw [calculateDominators]
  cases isForward : graph.gen.hasForwardSinglePredecessorCFG with
  | true => rw [if_pos rfl, calculateForwardSinglePredecessorDominators_eq isForward]
  | false =>
    exact calculateDominatorsByIntersection_eq enough

/-! ## Dominance frontiers -/

/-- The generator with the dominators recorded and the given frontiers. -/
noncomputable def withFrontier (graph : ControlFlowGraph)
    (frontier : BlockId → Finset BlockId) : Generator :=
  graph.gen.mapBlocks fun id =>
    { graph.withDominators id with dominanceFrontier := frontier id }

section Frontier

variable (frontier : BlockId → Finset BlockId) {predecessor : BlockId}

theorem block_withFrontier (inRange : id < graph.size) :
    (graph.withFrontier frontier).block id =
      { graph.withDominators id with dominanceFrontier := frontier id } :=
  block_mapBlocks inRange

theorem basicBlockAddToDF_withFrontier (block : BlockId) :
    (graph.withFrontier frontier).basicBlockAddToDF block id =
      graph.withFrontier (Function.update frontier block (insert id (frontier block))) := by
  rw [withFrontier, basicBlockAddToDF, modifyBlock_mapBlocks, withFrontier]
  congr 1
  funext other
  by_cases same : other = block
  · rw [same, Function.update_self, Function.update_self]
  · rw [Function.update_of_ne same, Function.update_of_ne same]

theorem basicBlockIsUnreachable_withFrontier (fuel : Nat) (inRange : id < graph.size) :
    ∃ unreachable, (graph.withFrontier frontier).basicBlockIsUnreachable fuel id =
        some (unreachable, graph.withFrontier frontier) ∧
      (unreachable = true ↔ ¬ graph.Reachable id) := by
  unfold basicBlockIsUnreachable
  by_cases atEntry : id = graph.entry
  · refine ⟨false, if_pos atEntry, ?_⟩
    rw [atEntry]
    exact iff_of_false Bool.false_ne_true (not_not.mpr Reachable.root)
  · have notEntry : id ≠ (graph.withFrontier frontier).entryBlock := atEntry
    refine ⟨(graph.withDominators id).isUnreachable, ?_, ?_⟩
    · rw [if_neg notEntry, block_withFrontier _ inRange]
      rfl
    · simp [withDominators]

/-- The runner of one in edge adds the join to the frontier of the blocks that dominate
the predecessor but do not strictly dominate the join. -/
theorem exists_runFrontier (enough : graph.size ≤ fuel)
    (follows : graph.gen.Edge predecessor id) (reached : graph.Reachable predecessor) :
    ∃ next, (graph.withFrontier frontier).runFrontier fuel id predecessor =
        some (graph.withFrontier next) ∧
      ∀ block join, join ∈ next block ↔ join ∈ frontier block ∨
        (join = id ∧ graph.Dominates block predecessor ∧
          ¬ graph.StrictlyDominates block id) := by
  have inRange := target_lt follows
  have isIdom : ∀ current : BlockId → Finset BlockId,
      ((graph.withFrontier current).block id).idom = graph.immediateDominator id := by
    intro current
    rw [block_withFrontier _ inRange]
    rfl
  let Invariant : Option BlockId × Generator → Prop := fun state =>
    (∀ runner, state.1 = some runner → graph.Dominates runner predecessor ∧
      ∀ dominator, graph.ImmediatelyDominates dominator id → graph.Dominates dominator runner) ∧
    (state.1 = none → graph.immediateDominator id = none) ∧
    ∃ current, state.2 = graph.withFrontier current ∧
      ∀ block join, join ∈ current block ↔ join ∈ frontier block ∨
        (join = id ∧ graph.Climbed predecessor state.1 block)
  have steps : ∀ state : Option BlockId × Generator, Invariant state →
      (state.1.isSome && state.1 != (state.2.block id).idom) = true →
      ∃ next, (state.1.map fun runner =>
          let gen := state.2.basicBlockAddToDF runner id
          ((gen.block runner).idom, gen)) = some next ∧
        Invariant next ∧ graph.height next.1 < graph.height state.1 := by
    rintro ⟨runner, gen⟩ ⟨onWay, _, current, isGen, isCurrent⟩ continues
    subst isGen
    cases runner with
    | none => cases continues
    | some runner =>
      rcases onWay runner rfl with ⟨dominates, aboveRunner⟩
      have notIdom : graph.immediateDominator id ≠ some runner := by
        rw [isIdom, Option.isSome_some, Bool.true_and, bne_iff_ne] at continues
        exact fun same => continues same.symm
      have isUp : ((graph.withFrontier
          (Function.update current runner (insert id (current runner)))).block runner).idom =
          graph.immediateDominator runner := by
        rw [block_withFrontier _ (lt_of_reachable dominates.reachable)]
        rfl
      have aboveNext : ∀ up dominator, graph.immediateDominator runner = some up →
          graph.ImmediatelyDominates dominator id → graph.Dominates dominator up := by
        intro up dominator isNext immediate
        refine (immediateDominator_eq_some_iff.mp isNext).2 dominator
          ⟨aboveRunner dominator immediate, ?_⟩
        rintro rfl
        exact notIdom (immediateDominator_eq_some_iff.mpr immediate)
      simp only [Option.map_some, basicBlockAddToDF_withFrontier, isUp]
      refine ⟨_, rfl, ⟨?_, ?_, _, rfl, ?_⟩, height_lt dominates.reachable⟩
      · intro up isNext
        exact ⟨(immediateDominator_eq_some_iff.mp isNext).1.1.trans dominates,
          fun dominator => aboveNext up dominator isNext⟩
      · intro isTop
        rw [Option.eq_none_iff_forall_ne_some]
        intro dominator isDominator
        have atEntry := eq_entry_of_immediateDominator_eq_none dominates.reachable isTop
        have above := aboveRunner dominator (immediateDominator_eq_some_iff.mp isDominator)
        rw [atEntry] at above
        rw [dominates_entry_iff.mp above, ← atEntry] at isDominator
        exact notIdom isDominator
      · intro block join
        simp only [climbed_step dominates]
        by_cases same : block = runner
        · subst same
          rw [Function.update_self, Finset.mem_insert, isCurrent]
          constructor
          · rintro (rfl | inFrontier | ⟨isJoin, climbed⟩)
            · exact Or.inr ⟨rfl, Or.inl rfl⟩
            · exact Or.inl inFrontier
            · exact Or.inr ⟨isJoin, Or.inr climbed⟩
          · rintro (inFrontier | ⟨isJoin, _⟩)
            · exact Or.inr (Or.inl inFrontier)
            · exact Or.inl isJoin
        · rw [Function.update_of_ne same, isCurrent]
          simp only [same, false_or]
  have start : Invariant (some predecessor, graph.withFrontier frontier) := by
    refine ⟨?_, ?_, frontier, rfl, ?_⟩
    · intro runner isRunner
      obtain rfl := Option.some_inj.mp isRunner
      refine ⟨Dominates.refl reached, ?_⟩
      intro dominator immediate
      exact immediate.1.1.of_edge immediate.1.2 reached follows
    · intro isNone
      cases isNone
    · intro block join
      simp only [not_climbed_start, and_false, or_false]
  rcases exists_runWhile Invariant (fun state => graph.height state.1) steps start
    (Nat.le_trans (height_le _) enough) with
    ⟨⟨runner, gen⟩, returns, ⟨onWay, isTop, next, isGen, isNext⟩, stops⟩
  subst isGen
  refine ⟨next, by rw [runFrontier, returns]; rfl, ?_⟩
  intro block join
  rw [isNext]
  have stopsAt : graph.immediateDominator id = runner := by
    rw [isIdom] at stops
    cases runner with
    | none => exact isTop rfl
    | some runner =>
      rw [Option.isSome_some, Bool.true_and, bne_eq_false_iff_eq] at stops
      exact stops.symm
  have isStrict : (∀ current, runner = some current → ¬ graph.Dominates block current) ↔
      ¬ graph.StrictlyDominates block id := by
    cases runner with
    | none =>
      have atEntry := eq_entry_of_immediateDominator_eq_none (reached.step follows) stopsAt
      refine iff_of_true (fun _ isRunner => by cases isRunner) ?_
      rintro ⟨dominates, different⟩
      rw [atEntry] at dominates different
      exact different (dominates_entry_iff.mp dominates)
    | some runner =>
      have immediate := immediateDominator_eq_some_iff.mp stopsAt
      have strict : graph.StrictlyDominates block id ↔ graph.Dominates block runner :=
        immediate.strictlyDominates_iff
      rw [strict]
      constructor
      · exact fun notAbove => notAbove runner rfl
      · rintro notAbove current isRunner
        obtain rfl := Option.some_inj.mp isRunner
        exact notAbove
  rw [Climbed, isStrict]

/-- One join block adds itself to the frontiers it belongs to. -/
theorem exists_basicBlockFrontier (enough : graph.size ≤ fuel) (inRange : id < graph.size) :
    ∃ next, (graph.withFrontier frontier).basicBlockCalculateDominanceFrontier fuel id =
        some (graph.withFrontier next) ∧
      ∀ block join, join ∈ next block ↔ join ∈ frontier block ∨
        (join = id ∧ join ∈ graph.frontierSet block) := by
  have sameEdges : ((graph.withFrontier frontier).block id).inEdges =
      (graph.gen.block id).inEdges := by
    rw [block_withFrontier _ inRange]
    rfl
  rw [basicBlockCalculateDominanceFrontier, sameEdges]
  by_cases isJoin : (graph.gen.block id).inEdges.length ≥ 2
  · let Invariant : List BlockId → Generator → Prop := fun done gen =>
      ∃ current, gen = graph.withFrontier current ∧
        ∀ block join, join ∈ current block ↔ join ∈ frontier block ∨
          (join = id ∧ ∃ predecessor ∈ done, graph.Dominates block predecessor ∧
            ¬ graph.StrictlyDominates block id)
    have start : Invariant [] (graph.withFrontier frontier) := by
      refine ⟨frontier, rfl, ?_⟩
      intro block join
      simp only [List.not_mem_nil, false_and, exists_const, and_false, or_false]
    have steps : ∀ done predecessor rest gen,
        (graph.gen.block id).inEdges = done ++ predecessor :: rest → Invariant done gen →
        ∃ next, ((gen.basicBlockIsUnreachable fuel predecessor).bind fun answer =>
            if answer.1 then some answer.2 else answer.2.runFrontier fuel id predecessor) = some next ∧
          Invariant (done ++ [predecessor]) next := by
      rintro done predecessor rest gen split ⟨current, rfl, isCurrent⟩
      have follows : graph.gen.Edge predecessor id := by
        rw [edge_iff_mem_inEdges, split]
        exact List.mem_append_right _ List.mem_cons_self
      have isExtended : ∀ block join, (join = id ∧ ∃ other ∈ done ++ [predecessor],
          graph.Dominates block other ∧ ¬ graph.StrictlyDominates block id) ↔
          (join = id ∧ ∃ other ∈ done, graph.Dominates block other ∧
            ¬ graph.StrictlyDominates block id) ∨
          (join = id ∧ graph.Dominates block predecessor ∧
            ¬ graph.StrictlyDominates block id) := by
        intro block join
        simp only [List.mem_append, List.mem_singleton, or_and_right, exists_or,
          exists_eq_left, and_or_left]
      rcases basicBlockIsUnreachable_withFrontier current fuel (source_lt follows) with ⟨unreachable, returns, isUnreachable⟩
      simp only [returns, Option.bind_eq_bind, Option.bind_some]
      cases unreachable with
      | true =>
        refine ⟨_, rfl, current, rfl, ?_⟩
        intro block join
        rw [isExtended, isCurrent]
        have notReached : ¬ graph.Dominates block predecessor :=
          fun dominates => isUnreachable.mp rfl dominates.1
        simp only [notReached, false_and, and_false, or_false]
      | false =>
        have reached : graph.Reachable predecessor := by
          by_contra notReached
          exact Bool.false_ne_true (isUnreachable.mpr notReached)
        rcases exists_runFrontier current enough follows reached with
          ⟨next, runs, isNext⟩
        refine ⟨_, runs, next, rfl, ?_⟩
        intro block join
        rw [isExtended, isNext, isCurrent, or_assoc]
    rcases exists_foldlM Invariant steps start with ⟨final, returns, next, rfl, isNext⟩
    rw [if_pos isJoin]
    refine ⟨next, returns, ?_⟩
    intro block join
    rw [isNext]
    have isFrontier : (∃ predecessor ∈ (graph.gen.block id).inEdges,
        graph.Dominates block predecessor ∧ ¬ graph.StrictlyDominates block id) ↔
        id ∈ graph.frontierSet block := by
      rw [mem_frontierSet]
      constructor
      · rintro ⟨predecessor, member, dominates, notStrict⟩
        exact ⟨isJoin, ⟨predecessor, edge_iff_mem_inEdges.mpr member, dominates⟩, notStrict⟩
      · rintro ⟨_, ⟨predecessor, follows, dominates⟩, notStrict⟩
        exact ⟨predecessor, edge_iff_mem_inEdges.mp follows, dominates, notStrict⟩
    rw [isFrontier]
    constructor
    · rintro (before | ⟨rfl, inFrontier⟩)
      · exact Or.inl before
      · exact Or.inr ⟨rfl, inFrontier⟩
    · rintro (before | ⟨rfl, inFrontier⟩)
      · exact Or.inl before
      · exact Or.inr ⟨rfl, inFrontier⟩
  · rw [if_neg isJoin]
    refine ⟨frontier, rfl, ?_⟩
    intro block join
    constructor
    · exact Or.inl
    · rintro (before | ⟨rfl, inFrontier⟩)
      · exact before
      · exact absurd (mem_frontierSet.mp inFrontier).1 isJoin

theorem calculateDominanceFrontier_eq (enough : graph.size ≤ fuel) :
    (graph.withFrontier fun _ => ∅).calculateDominanceFrontier fuel =
      some (graph.withFrontier graph.frontierSet) := by
  let Invariant : List BlockId → Generator → Prop := fun done gen =>
    ∃ current, gen = graph.withFrontier current ∧
      ∀ block join, join ∈ current block ↔ join ∈ done ∧ join ∈ graph.frontierSet block
  have start : Invariant [] (graph.withFrontier fun _ => ∅) := by
    refine ⟨_, rfl, ?_⟩
    intro block join
    simp
  have steps : ∀ done id rest gen, List.range graph.size = done ++ id :: rest → Invariant done gen →
      ∃ next, gen.basicBlockCalculateDominanceFrontier fuel id = some next ∧
        Invariant (done ++ [id]) next := by
    rintro done id rest gen split ⟨current, rfl, isCurrent⟩
    rcases exists_basicBlockFrontier current enough (range_split split).2 with
      ⟨next, returns, isNext⟩
    refine ⟨_, returns, next, rfl, ?_⟩
    intro block join
    rw [isNext, isCurrent, List.mem_append, List.mem_singleton, or_and_right]
  have sameSize : (graph.withFrontier fun _ => ∅).basicBlocks.length = graph.size :=
    length_mapBlocks ..
  rw [calculateDominanceFrontier, sameSize]
  rcases exists_foldlM Invariant steps start with ⟨final, returns, current, rfl, isCurrent⟩
  rw [returns]
  have isAll : current = graph.frontierSet := by
    funext block
    ext join
    rw [isCurrent, List.mem_range]
    constructor
    · exact And.right
    · intro inFrontier
      rcases (mem_frontierSet.mp inFrontier).2.1 with ⟨_, follows, _⟩
      exact ⟨target_lt follows, inFrontier⟩
  rw [isAll]

end Frontier

end ControlFlowGraph

end DaveCC.Backend
