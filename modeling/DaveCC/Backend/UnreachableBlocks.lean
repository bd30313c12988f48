import DaveCC.Backend.DominanceFacts
import DaveCC.Graph.CachedSearch

/-!
# Edges after the analysis and unreachable blocks

`BasicBlockRemoveEdge` and `BasicBlockClear` of `basic_block.c`, and `RemoveUnreachableBlocks`
of `codegen.c`. A label of the exception metadata is known by its block.
-/

namespace DaveCC.Backend

open DaveCC.Loop

/-- A label that the exception metadata names. -/
structure ExceptionLabel where
  block : Option BlockId

structure ExceptionHandlerRange where
  tryStart : Option ExceptionLabel := none
  tryEnd : Option ExceptionLabel := none
  catchLabel : Option ExceptionLabel := none

/-- `exception_ranges` and `exception_keep_labels`. -/
structure ExceptionMetadata where
  ranges : List ExceptionHandlerRange := []
  keepLabels : List (Option ExceptionLabel) := []

def ExceptionHandlerRange.metadata (range : ExceptionHandlerRange) : List (Option ExceptionLabel) :=
  [range.tryStart, range.tryEnd, range.catchLabel]

/-- The blocks of the labels, in the order in which they are put on the work list. -/
def ExceptionMetadata.roots (metadata : ExceptionMetadata) : List BlockId :=
  (metadata.ranges.flatMap ExceptionHandlerRange.metadata ++ metadata.keepLabels).filterMap
    fun label => label.bind ExceptionLabel.block

namespace Generator

def basicBlockRemoveInput (gen : Generator) (block predecessor : BlockId) : Generator :=
  gen.modifyBlock block fun data => { data with inEdges := data.inEdges.erase predecessor }

/-- `BasicBlockRemoveEdge(source, target)`. -/
def basicBlockRemoveEdge (gen : Generator) (source target : BlockId) : Generator :=
  let gen := gen.basicBlockRemoveInput target source
  let gen := gen.modifyBlock source fun data =>
    { data with outEdges := data.outEdges.erase target }
  gen.modifyBlock target fun data => { data with reachabilityKnown := false }

def modifyNode (gen : Generator) (id : NodeId) (change : IRNode → IRNode) : Generator :=
  { gen with nodes := Function.update gen.nodes id (change (gen.nodes id)) }

def irRemoveNode (gen : Generator) (id : NodeId) : Generator :=
  let gen := (gen.nodes id).inputs.foldl
    (fun gen input => gen.modifyNode input fun node =>
      { node with outputs := node.outputs.erase id }) gen
  (gen.nodes id).outputs.foldl
    (fun gen output => gen.modifyNode output fun node =>
      { node with inputs := node.inputs.erase id }) gen

def isNamedLabel (gen : Generator) (inst : NodeId) : Bool :=
  (gen.nodes inst).opcode == .namedLabel

/-- `BasicBlockClear`: the named labels stay. -/
def basicBlockClear (gen : Generator) (id : BlockId) : Generator :=
  if (gen.block id).instructions = [] then gen
  else
    let removed := (gen.block id).instructions.filter fun inst => !gen.isNamedLabel inst
    let kept := (gen.block id).instructions.filter fun inst => gen.isNamedLabel inst
    let gen := removed.foldl irRemoveNode gen
    let gen := gen.modifyBlock id fun data => { data with instructions := kept }
    (gen.block id).outEdges.foldl (fun gen out => gen.basicBlockRemoveInput out id) gen

/-! ## Unreachable blocks -/

/-- The locals of the search from the exception labels. The last element of the work list
comes first. -/
structure ExceptionSearch where
  work : List BlockId
  visited : Finset BlockId := ∅
  reachable : Finset BlockId

def exceptionSearchStep (gen : Generator) (search : ExceptionSearch) : ExceptionSearch :=
  match search.work with
  | [] => search
  | block :: work =>
    if block ∈ search.visited then { search with work }
    else
      let visited := insert block search.visited
      { work := ((gen.block block).outEdges.filter (· ∉ visited)).reverse ++ work
        visited
        reachable := insert block search.reachable }

/-- `exception_reachable` after the search. -/
def exceptionReachable (fuel : Nat) (gen : Generator) (metadata : ExceptionMetadata) :
    Option (Finset BlockId) :=
  (runWhile (fun search => !search.work.isEmpty)
    (fun search => some (gen.exceptionSearchStep search)) fuel
    { work := metadata.roots.reverse, reachable := metadata.roots.toFinset }).map
      ExceptionSearch.reachable

/-- The body of the last loop. -/
def clearUnreachable (fuel : Nat) (keep : Finset BlockId) (gen : Generator) (id : BlockId) :
    Option Generator := do
  let (unreachable, gen) ← gen.basicBlockIsUnreachable fuel id
  if unreachable && id ∉ keep then some (gen.basicBlockClear id) else some gen

def removeUnreachableBlocks (fuel : Nat) (metadata : ExceptionMetadata) (gen : Generator) :
    Option Generator :=
  if metadata.ranges.length = 0 ∧ metadata.keepLabels.length = 0 then
    (List.range gen.basicBlocks.length).foldlM (clearUnreachable fuel ∅) gen
  else do
    let keep ← gen.exceptionReachable fuel metadata
    (List.range gen.basicBlocks.length).foldlM (clearUnreachable fuel keep) gen

/-- The answers of `BasicBlockIsUnreachable` for some blocks in turn. -/
def areUnreachable (fuel : Nat) : Generator → List BlockId → Option (List Bool × Generator)
  | gen, [] => some ([], gen)
  | gen, id :: rest => do
      let (answer, gen) ← gen.basicBlockIsUnreachable fuel id
      let (more, gen) ← areUnreachable fuel gen rest
      some (answer :: more, gen)

end Generator

end DaveCC.Backend

/-!
## The answers about reachability

`BasicBlockIsUnreachable` is the cached search on the in edges, with the answers recorded in
the blocks.
-/

namespace DaveCC.Backend

open DaveCC.Graph DaveCC.Loop

namespace Generator

/-- Every in edge comes from a block of the function. -/
def EdgesInRange (gen : Generator) : Prop :=
  ∀ id < gen.basicBlocks.length, ∀ predecessor ∈ (gen.block id).inEdges,
    predecessor < gen.basicBlocks.length

/-- The blocks with their in edges. -/
def predecessorGraph (gen : Generator) (inRange : gen.EdgesInRange) : PredecessorGraph BlockId where
  nodes := Finset.range gen.basicBlocks.length
  entry := gen.entryBlock
  predecessors := fun id => (gen.block id).inEdges
  closed := by
    simp only [Finset.mem_range]
    exact inRange

/-- What the blocks record. -/
def answers (gen : Generator) : Answers BlockId where
  known := fun id => (gen.block id).reachabilityKnown
  unreachable := fun id => (gen.block id).isUnreachable

/-- A block with other answers. -/
def recorded (gen : Generator) (answers : Answers BlockId) (id : BlockId) : BasicBlock :=
  { gen.block id with
    reachabilityKnown := answers.known id
    isUnreachable := answers.unreachable id }

/-- The generator with other answers in its blocks. -/
def withAnswers (gen : Generator) (answers : Answers BlockId) : Generator :=
  gen.mapBlocks (gen.recorded answers)

variable {gen : Generator} {answers : Answers BlockId} {id : BlockId} {fuel : Nat}

theorem withAnswers_answers (gen : Generator) : gen.withAnswers gen.answers = gen :=
  gen.mapBlocks_block

@[simp] theorem length_withAnswers :
    (gen.withAnswers answers).basicBlocks.length = gen.basicBlocks.length :=
  length_mapBlocks _ _

theorem block_withAnswers (inRange : id < gen.basicBlocks.length) :
    (gen.withAnswers answers).block id = gen.recorded answers id :=
  block_mapBlocks inRange

theorem enter_withAnswers (id : BlockId) :
    (gen.withAnswers answers).modifyBlock id (fun data => { data with reachabilityKnown := true }) =
      gen.withAnswers (answers.enter id) := by
  rw [withAnswers, modifyBlock_mapBlocks]
  apply mapBlocks_congr
  intro other _
  by_cases same : other = id
  · simp [same, recorded, Answers.enter]
  · simp [same, recorded, Answers.enter]

theorem record_withAnswers (id : BlockId) :
    (gen.withAnswers answers).modifyBlock id (fun data => { data with isUnreachable := true }) =
      gen.withAnswers (answers.record id) := by
  rw [withAnswers, modifyBlock_mapBlocks]
  apply mapBlocks_congr
  intro other _
  by_cases same : other = id
  · simp [same, recorded, Answers.record]
  · simp [same, recorded, Answers.record]

theorem isUnreachable_entry (gen : Generator) (fuel : Nat) :
    gen.basicBlockIsUnreachable fuel gen.entryBlock = some (false, gen) := by
  unfold basicBlockIsUnreachable
  rw [if_pos rfl]

theorem isUnreachable_known (gen : Generator) (fuel : Nat) (notEntry : id ≠ gen.entryBlock)
    (isKnown : (gen.block id).reachabilityKnown = true) :
    gen.basicBlockIsUnreachable fuel id = some ((gen.block id).isUnreachable, gen) := by
  unfold basicBlockIsUnreachable
  rw [if_neg notEntry, if_pos isKnown]

theorem isUnreachable_zero (gen : Generator) (notEntry : id ≠ gen.entryBlock)
    (isUnknown : (gen.block id).reachabilityKnown = false) :
    gen.basicBlockIsUnreachable 0 id = none := by
  unfold basicBlockIsUnreachable
  rw [if_neg notEntry, if_neg (Bool.eq_false_iff.mp isUnknown)]

def markKnown (gen : Generator) (id : BlockId) : Generator :=
  gen.modifyBlock id fun data => { data with reachabilityKnown := true }

def markUnreachable (gen : Generator) (id : BlockId) : Generator :=
  gen.modifyBlock id fun data => { data with isUnreachable := true }

theorem isUnreachable_unknown (gen : Generator) (fuel : Nat) (notEntry : id ≠ gen.entryBlock)
    (isUnknown : (gen.block id).reachabilityKnown = false) :
    gen.basicBlockIsUnreachable (fuel + 1) id =
      (((gen.markKnown id).block id).inEdges.foldlM
        (fun (state : Bool × Generator) predecessor =>
          if state.1 then state.2.basicBlockIsUnreachable fuel predecessor else some state)
        (true, gen.markKnown id)).map fun state =>
          if state.1 then (true, state.2.markUnreachable id) else (false, state.2) := by
  have result : ∀ loop : Option (Bool × Generator),
      (loop.bind fun (allUnreachable, gen) =>
        if allUnreachable then some (true, gen.markUnreachable id) else some (false, gen)) =
      loop.map fun state =>
        if state.1 then (true, state.2.markUnreachable id) else (false, state.2) := by
    intro loop
    rcases loop with _ | ⟨_ | _, gen⟩ <;> rfl
  conv => lhs; unfold basicBlockIsUnreachable
  rw [if_neg notEntry, if_neg (Bool.eq_false_iff.mp isUnknown)]
  exact result _

/-- The answer of a search, with the generator afterwards. -/
def afterSearch (gen : Generator) (found : Bool × Answers BlockId) : Bool × Generator :=
  (found.1, gen.withAnswers found.2)

section

variable (inRange : gen.EdgesInRange) (isBlock : id < gen.basicBlocks.length)

include inRange isBlock

/-- A block that is not searched for. -/
theorem isUnreachable_settled (settled : id ≠ gen.entryBlock → answers.known id = true) :
    (gen.withAnswers answers).basicBlockIsUnreachable fuel id =
      ((gen.predecessorGraph inRange).ask fuel answers id).map gen.afterSearch := by
  have isRecorded : (gen.withAnswers answers).block id = gen.recorded answers id :=
    block_withAnswers isBlock
  by_cases isEntry : id = gen.entryBlock
  · have asked : (gen.predecessorGraph inRange).ask fuel answers id = some (false, answers) := by
      rw [isEntry]
      exact PredecessorGraph.ask_entry
    rw [asked, isEntry]
    exact isUnreachable_entry (gen.withAnswers answers) fuel
  · have asked : (gen.predecessorGraph inRange).ask fuel answers id =
        some (answers.unreachable id, answers) :=
      PredecessorGraph.ask_known isEntry (settled isEntry)
    have isKnown : ((gen.withAnswers answers).block id).reachabilityKnown = true := by
      rw [isRecorded]
      exact settled isEntry
    rw [asked, isUnreachable_known (gen.withAnswers answers) fuel isEntry isKnown, isRecorded]
    rfl

/-- A block that is searched for, when the search agrees on its predecessors. -/
theorem isUnreachable_searched (notEntry : id ≠ gen.entryBlock)
    (isUnknown : answers.known id = false) (agrees : ∀ predecessor ∈ (gen.block id).inEdges,
      ∀ answers, (gen.withAnswers answers).basicBlockIsUnreachable fuel predecessor =
      ((gen.predecessorGraph inRange).ask fuel answers predecessor).map gen.afterSearch) :
    (gen.withAnswers answers).basicBlockIsUnreachable (fuel + 1) id =
      ((gen.predecessorGraph inRange).ask (fuel + 1) answers id).map gen.afterSearch := by
  have unknown : ((gen.withAnswers answers).block id).reachabilityKnown = false := by
    rw [block_withAnswers isBlock]
    exact isUnknown
  have marked : (gen.withAnswers answers).markKnown id = gen.withAnswers (answers.enter id) :=
    enter_withAnswers id
  have inEdges : ((gen.withAnswers (answers.enter id)).block id).inEdges =
      (gen.block id).inEdges := by
    rw [block_withAnswers isBlock]
    rfl
  have loop : (gen.block id).inEdges.foldlM
      (fun (state : Bool × Generator) predecessor =>
        if state.1 then state.2.basicBlockIsUnreachable fuel predecessor else some state)
      (true, gen.withAnswers (answers.enter id)) =
      ((gen.block id).inEdges.foldlM
        (fun (state : Bool × Answers BlockId) predecessor =>
          if state.1 then (gen.predecessorGraph inRange).ask fuel state.2 predecessor
          else some state)
        (true, answers.enter id)).map gen.afterSearch := by
    apply foldlM_map gen.afterSearch _ (true, answers.enter id)
    intro state predecessor isPredecessor
    rcases state with ⟨_ | _, answers⟩
    · rfl
    · exact agrees predecessor isPredecessor answers
  rw [isUnreachable_unknown (gen.withAnswers answers) fuel notEntry unknown, marked, inEdges, loop,
    PredecessorGraph.ask_unknown (show id ≠ (gen.predecessorGraph inRange).entry from notEntry)
    isUnknown, Option.map_map, Option.map_map]
  congr 1
  funext state
  rcases state with ⟨_ | _, next⟩
  · rfl
  · exact congrArg (Prod.mk true) (record_withAnswers id)

/-- `BasicBlockIsUnreachable` is the cached search. -/
theorem isUnreachable_withAnswers :
    (gen.withAnswers answers).basicBlockIsUnreachable fuel id =
      ((gen.predecessorGraph inRange).ask fuel answers id).map gen.afterSearch := by
  induction fuel generalizing answers id with
  | zero =>
    by_cases settled : id ≠ gen.entryBlock → answers.known id = true
    · exact isUnreachable_settled inRange isBlock settled
    · have ⟨notEntry, isKnown⟩ := Classical.not_imp.mp settled
      have isUnknown := Bool.eq_false_iff.mpr isKnown
      have unknown : ((gen.withAnswers answers).block id).reachabilityKnown = false := by
        rw [block_withAnswers isBlock]
        exact isUnknown
      rw [isUnreachable_zero (gen.withAnswers answers) notEntry unknown, PredecessorGraph.ask_zero
        (show id ≠ (gen.predecessorGraph inRange).entry from notEntry) isUnknown]
      rfl
  | succ fuel ih =>
    by_cases settled : id ≠ gen.entryBlock → answers.known id = true
    · exact isUnreachable_settled inRange isBlock settled
    · have ⟨notEntry, isKnown⟩ := Classical.not_imp.mp settled
      apply isUnreachable_searched inRange isBlock notEntry (Bool.eq_false_iff.mpr isKnown)
      intro predecessor isPredecessor answers
      exact ih (inRange id isBlock predecessor isPredecessor)

end

/-- The answers of `BasicBlockIsUnreachable` for several blocks in turn. -/
theorem areUnreachable_withAnswers (inRange : gen.EdgesInRange) {ids : List BlockId}
    (areBlocks : ∀ id ∈ ids, id < gen.basicBlocks.length) :
    (gen.withAnswers answers).areUnreachable fuel ids =
      ((gen.predecessorGraph inRange).askAll fuel answers ids).map fun found =>
        (found.1, gen.withAnswers found.2) := by
  induction ids generalizing answers with
  | nil => rfl
  | cons id rest ih =>
    rw [areUnreachable, PredecessorGraph.askAll,
      isUnreachable_withAnswers inRange (areBlocks id List.mem_cons_self)]
    cases (gen.predecessorGraph inRange).ask fuel answers id with
    | none => rfl
    | some found =>
      have later : (gen.withAnswers found.2).areUnreachable fuel rest = _ :=
        ih fun other inside => areBlocks other (List.mem_cons_of_mem _ inside)
      dsimp only [Option.map_some, Option.bind_eq_bind, Option.bind_some, afterSearch]
      rw [later]
      cases (gen.predecessorGraph inRange).askAll fuel found.2 rest with
      | none => rfl
      | some more => rfl

end Generator

end DaveCC.Backend
