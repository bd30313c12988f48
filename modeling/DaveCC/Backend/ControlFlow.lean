import Mathlib.Data.Finset.Card
import DaveCC.Backend.IR
import DaveCC.Loop.While
import Mathlib.Algebra.Group.Nat.Defs

/-!
# Analysis of the control-flow graph

`AnalyzeCFG` of `codegen.c` with the functions of `basic_block.c` it calls. A bit
set of blocks is a `Finset`, a vector used as a stack is a list with its top
first, and the work array `idoms` and `rpo_number` are functions of the block id.
An absent result stands for a loop that has used up its fuel, or for following a
`NULL` immediate dominator.
-/

namespace DaveCC.Backend

open DaveCC.Loop

def kSizeMax : Nat := 2 ^ 64 - 1

/-- The locals of `ComputeReversePostorder`. A work item is a block id shifted left
by one, with the low bit set once the block has been expanded. -/
structure PostorderSearch where
  work : List Nat
  postorder : List BlockId
  reachable : Finset BlockId

/-- The tentative immediate dominators of `CalculateDominators`. -/
abbrev Idoms := BlockId → Option BlockId

namespace Generator

/-- Replace the block behind an id. -/
def modifyBlock (gen : Generator) (id : BlockId) (change : BasicBlock → BasicBlock) :
    Generator :=
  { gen with basicBlocks := gen.basicBlocks.modify id change }

/-- `BasicBlockAddInEdge(block, predecessor)`. -/
def basicBlockAddInEdge (gen : Generator) (block predecessor : BlockId) : Generator :=
  (gen.modifyBlock block fun data =>
      { data with inEdges := data.inEdges ++ [predecessor] }).modifyBlock predecessor fun data =>
    { data with reachabilityKnown := false }

/-- `BasicBlockAddEdge(source, target)`. -/
def basicBlockAddEdge (gen : Generator) (source target : BlockId) : Generator :=
  let gen := gen.modifyBlock source fun data =>
    { data with outEdges := data.outEdges ++ [target] }
  let gen := gen.basicBlockAddInEdge target source
  gen.modifyBlock target fun data => { data with reachabilityKnown := false }

/-- `BasicBlockIsUnreachable`: the recorded answer, or a search back through the
in edges that marks the blocks it has entered as known. -/
def basicBlockIsUnreachable (fuel : Nat) (gen : Generator) (id : BlockId) :
    Option (Bool × Generator) :=
  if id = gen.entryBlock then some (false, gen)
  else if (gen.block id).reachabilityKnown then some ((gen.block id).isUnreachable, gen)
  else
    match fuel with
    | 0 => none
    | fuel + 1 => do
        let gen := gen.modifyBlock id fun data => { data with reachabilityKnown := true }
        let (allUnreachable, gen) ← (gen.block id).inEdges.foldlM
          (fun (state : Bool × Generator) predecessor =>
            if state.1 then state.2.basicBlockIsUnreachable fuel predecessor
            else some state)
          (true, gen)
        if allUnreachable then
          some (true, gen.modifyBlock id fun data => { data with isUnreachable := true })
        else some (false, gen)

def hasForwardSinglePredecessorCFG (gen : Generator) : Bool :=
  (List.range gen.basicBlocks.length).all fun id =>
    if id == gen.entryBlock then true
    else match (gen.block id).inEdges with
    | [] => true
    | [predecessor] => decide (predecessor < id)
    | _ => false

/-- The facts about dominators that `CalculateDominators` sets before it computes them. -/
def clearDominators (gen : Generator) (id : BlockId) (unreachable : Bool) : Generator :=
  gen.modifyBlock id fun data =>
    { data with
      dominators := ∅, idom := none, numDominators := 0, reachabilityKnown := true
      isUnreachable := unreachable }

/-- A block takes over the dominators of its reachable predecessor. -/
def inheritDominators (gen : Generator) (id : BlockId) : Generator :=
  match (gen.block id).inEdges with
  | [predecessor] =>
    if id != gen.entryBlock && !(gen.block predecessor).isUnreachable then
      gen.modifyBlock id fun data =>
        { data with
          dominators := (gen.block predecessor).dominators
          idom := some predecessor
          isUnreachable := false }
    else gen
  | _ => gen

/-- A reachable block is one of its own dominators. -/
def insertSelf (gen : Generator) (id : BlockId) : Generator :=
  if (gen.block id).isUnreachable then gen
  else gen.modifyBlock id fun data =>
    { data with
      dominators := insert id data.dominators
      numDominators := (insert id data.dominators).card }

/-- One iteration of `CalculateForwardSinglePredecessorDominators`. -/
def forwardDominatorStep (gen : Generator) (id : BlockId) : Generator :=
  ((gen.clearDominators id (id != gen.entryBlock)).inheritDominators id).insertSelf id

def calculateForwardSinglePredecessorDominators (gen : Generator) : Generator :=
  (List.range gen.basicBlocks.length).foldl forwardDominatorStep gen

/-- One iteration of `ComputeReversePostorder`. -/
def postorderStep (gen : Generator) (search : PostorderSearch) : PostorderSearch :=
  match search.work with
  | [] => search
  | item :: work =>
    let id := item >>> 1
    let expanded := item &&& 1 != 0
    if expanded then { search with work, postorder := search.postorder ++ [id] }
    else if id ∈ search.reachable then { search with work }
    else
      let reachable := insert id search.reachable
      -- the successors are pushed from the last to the first
      let work := (gen.block id).outEdges.reverse.foldl
        (fun work successor =>
          if successor ∈ reachable then work else (successor <<< 1) :: work)
        ((id <<< 1 ||| 1) :: work)
      { search with work, reachable }

def computeReversePostorder (fuel : Nat) (gen : Generator) : Option PostorderSearch :=
  runWhile (fun search => !search.work.isEmpty) (fun search => some (gen.postorderStep search)) fuel
    { work := [gen.entryBlock <<< 1], postorder := [], reachable := ∅ }

/-- `rpo_number`: the position of each block in the reverse of the postorder. -/
def rpoNumbers (postorder : List BlockId) : BlockId → Nat :=
  postorder.reverse.zipIdx.foldl
    (fun numbers entry => Function.update numbers entry.1 entry.2) fun _ => kSizeMax

/-! ## Immediate dominators -/

/-- An inner loop of `IntersectImmediateDominators`: follow the immediate dominators
of `block` down to the number of `limit`. -/
def climb (fuel : Nat) (idoms : Idoms) (rpoNumber : BlockId → Nat)
    (block limit : BlockId) : Option BlockId :=
  runWhile (fun block => decide (rpoNumber block > rpoNumber limit)) idoms fuel block

def intersectImmediateDominators (fuel : Nat) (idoms : Idoms) (rpoNumber : BlockId → Nat)
    (left right : BlockId) : Option BlockId :=
  (runWhile (fun (pair : BlockId × BlockId) => pair.1 != pair.2)
    (fun pair => do
      let left ← climb fuel idoms rpoNumber pair.1 pair.2
      let right ← climb fuel idoms rpoNumber pair.2 left
      some (left, right))
    fuel (left, right)).map Prod.fst

/-- The loop over the in edges of one block in `CalculateDominators`. -/
def newIdom (fuel : Nat) (gen : Generator) (rpoNumber : BlockId → Nat) (idoms : Idoms)
    (id : BlockId) : Option (Option BlockId) :=
  (gen.block id).inEdges.foldlM
    (fun newIdom predecessor =>
      if (idoms predecessor).isNone then some newIdom
      else match newIdom with
      | none => some (some predecessor)
      | some current =>
        (intersectImmediateDominators fuel idoms rpoNumber current predecessor).map some)
    none

/-- One block of a pass of `CalculateDominators`, with the flag `changed`. -/
def visitBlock (fuel : Nat) (gen : Generator) (rpoNumber : BlockId → Nat)
    (state : Idoms × Bool) (id : BlockId) : Option (Idoms × Bool) := do
  match ← gen.newIdom fuel rpoNumber state.1 id with
  | none => some state
  | some idom =>
    if state.1 id != some idom then
      some (Function.update state.1 id (some idom), true)
    else some state

/-- The fixed-point loop of `CalculateDominators`. -/
def computeIdoms (fuel : Nat) (gen : Generator) (postorder : List BlockId) :
    Option Idoms :=
  (runWhile (fun (state : Idoms × Bool) => state.2)
    (fun state => postorder.reverse.tail.foldlM
      (gen.visitBlock fuel (rpoNumbers postorder)) (state.1, false))
    fuel
    (Function.update (fun _ => none) gen.entryBlock (some gen.entryBlock), true)).map Prod.fst

/-- The loop that inserts a block and the immediate dominators above it, and counts
them. -/
def materializeDominators (fuel : Nat) (gen : Generator) (idoms : Idoms) (id : BlockId) :
    Option (Finset BlockId × Nat) :=
  (runWhile (fun (state : Option BlockId × Finset BlockId × Nat) => state.1.isSome)
    (fun state => state.1.map fun dominator =>
      (if dominator = gen.entryBlock then none else idoms dominator,
        insert dominator state.2.1, state.2.2 + 1))
    fuel (some id, ∅, 0)).map Prod.snd

/-- The final loop of `CalculateDominators` for one block. -/
def recordDominators (fuel : Nat) (reachable : Finset BlockId) (idoms : Idoms)
    (gen : Generator) (id : BlockId) : Option Generator :=
  let gen := gen.clearDominators id (decide (id ∉ reachable))
  if id ∉ reachable then some gen
  else do
    let (dominators, count) ← gen.materializeDominators fuel idoms id
    some (gen.modifyBlock id fun data =>
      { data with
        idom := if id = gen.entryBlock then none else idoms id
        dominators
        numDominators := count })

/-- The Cooper-Harvey-Kennedy path of `CalculateDominators`. -/
def calculateDominatorsByIntersection (fuel : Nat) (gen : Generator) :
    Option Generator := do
  let search ← gen.computeReversePostorder fuel
  let idoms ← gen.computeIdoms fuel search.postorder
  (List.range gen.basicBlocks.length).foldlM (recordDominators fuel search.reachable idoms) gen

def calculateDominators (fuel : Nat) (gen : Generator) : Option Generator :=
  if gen.hasForwardSinglePredecessorCFG then
    some gen.calculateForwardSinglePredecessorDominators
  else gen.calculateDominatorsByIntersection fuel

def basicBlockAddToDF (gen : Generator) (block id : BlockId) : Generator :=
  gen.modifyBlock block fun data =>
    { data with dominanceFrontier := insert id data.dominanceFrontier }

/-- The runner of one in edge in `BasicBlockCalculateDominanceFrontier`. -/
def runFrontier (fuel : Nat) (gen : Generator) (id predecessor : BlockId) :
    Option Generator :=
  (runWhile
    (fun (state : Option BlockId × Generator) =>
      state.1.isSome && state.1 != (state.2.block id).idom)
    (fun state => state.1.map fun runner =>
      let gen := state.2.basicBlockAddToDF runner id
      ((gen.block runner).idom, gen))
    fuel (some predecessor, gen)).map Prod.snd

def basicBlockCalculateDominanceFrontier (fuel : Nat) (gen : Generator) (id : BlockId) :
    Option Generator :=
  if (gen.block id).inEdges.length ≥ 2 then
    (gen.block id).inEdges.foldlM
      (fun gen predecessor => do
        let (unreachable, gen) ← gen.basicBlockIsUnreachable fuel predecessor
        if unreachable then some gen else gen.runFrontier fuel id predecessor)
      gen
  else some gen

def calculateDominanceFrontier (fuel : Nat) (gen : Generator) : Option Generator :=
  (List.range gen.basicBlocks.length).foldlM
    (fun gen id => gen.basicBlockCalculateDominanceFrontier fuel id) gen

def buildDominatorTree (gen : Generator) : Generator :=
  (List.range gen.basicBlocks.length).foldl
    (fun gen id =>
      match (gen.block id).idom with
      | some idom => gen.modifyBlock idom fun data =>
        { data with dominatees := data.dominatees ++ [id] }
      | none => gen)
    gen

def resetCFGAnalysis (gen : Generator) : Generator :=
  { gen with
    basicBlocks := gen.basicBlocks.map fun data =>
      { data with
        dominators := ∅, numDominators := 0, dominatees := [], dominanceFrontier := ∅
        idom := none, reachabilityKnown := false, isUnreachable := false } }

/-- `AnalyzeCFG` up to the loop information, which reads these results only. -/
def analyzeCFG (fuel : Nat) (gen : Generator) : Option Generator := do
  let gen ← gen.resetCFGAnalysis.calculateDominators fuel
  let gen ← gen.calculateDominanceFrontier fuel
  some gen.buildDominatorTree

end Generator

end DaveCC.Backend
