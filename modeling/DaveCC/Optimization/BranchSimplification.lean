import DaveCC.Backend.IREditing
import DaveCC.Optimization.Sccp

/-!
# The inputs of phi nodes

`AddPhiInputs` and `FindSSAVar` of `ssa.c`, over the definitions that renaming left in
the `defined_vars` of the blocks, and the edges of a block as `basic_block.c` removes
them. A walk over a list of instructions runs for at most `fuel` iterations.
-/

namespace DaveCC.Optimization

open DaveCC.Backend DaveCC.Loop

/-- The nodes of a function with the edges of its blocks. -/
structure FlowGraph where
  graph : IRGraph
  inEdges : BlockId → List BlockId
  outEdges : BlockId → List BlockId

/-- `defined_vars` of the blocks: the version of a symbol at the end of a block that
defines it. -/
abbrev DefinedVars := BlockId → Symbol → Option NodeId

namespace FlowGraph

def isOpcode (graph : IRGraph) (opcode : IROpcode) (inst : Option NodeId) : Bool :=
  inst.any fun id => (graph.nodes id).any fun node => node.opcode == opcode

/-- The phi nodes from an instruction on. -/
def phiRun (graph : IRGraph) : Nat → Option NodeId → Option (List NodeId)
  | fuel, inst =>
    match inst with
    | none => some []
    | some id =>
      if isOpcode graph .phi (some id) then
        match fuel with
        | 0 => none
        | fuel + 1 => (phiRun graph fuel (graph.code.next id)).map (id :: ·)
      else some []

/-- The phi nodes that a walk from the start of a block meets: it skips the `ssavar`
nodes and ends at the first other instruction, whatever block that is in. -/
def headPhis (graph : IRGraph) (fuel : Nat) (block : BlockId) : Option (List NodeId) := do
  let first ← runWhile (isOpcode graph .ssavar) (fun inst => some (inst.bind graph.code.next))
    fuel (graph.spans block).code
  phiRun graph fuel first

/-- `FindSSAVar`. The blocks that the search visited stay visited when it returns. -/
def findSSAVar (inEdges : BlockId → List BlockId) (definedVars : DefinedVars) (symbol : Symbol) :
    Nat → BlockId → Finset BlockId → Option (Option NodeId × Finset BlockId)
  | fuel, block, visited =>
    match definedVars block symbol with
    | some version => some (some version, visited)
    | none =>
      match fuel with
      | 0 => none
      | fuel + 1 =>
        (inEdges block).foldlM
          (fun search id =>
            if search.1.isSome then some search
            else if id ∈ search.2 then some (definedVars id symbol, search.2)
            else findSSAVar inEdges definedVars symbol fuel id (insert id search.2))
          (none, visited)

/-- The version that `AddPhiInputs` finds for a predecessor of a block, with a search of
its own. -/
def reachingVersion (flow : FlowGraph) (definedVars : DefinedVars) (fuel : Nat)
    (block : BlockId) (symbol : Symbol) (predecessor : BlockId) : Option (Option NodeId) :=
  (findSSAVar flow.inEdges definedVars symbol fuel predecessor {block}).map Prod.fst

/-- The inner loop of `AddPhiInputs`. A predecessor without a version adds no input. -/
def addInputsOf (flow : FlowGraph) (definedVars : DefinedVars) (fuel : Nat) (block : BlockId)
    (graph : IRGraph) (phi : NodeId) : Option IRGraph := do
  let node ← graph.nodes phi
  let symbol ← node.symbol
  (flow.inEdges block).foldlM
    (fun graph predecessor => do
      let version ← flow.reachingVersion definedVars fuel block symbol predecessor
      match version with
      | some version => graph.irAddInput fuel phi version false
      | none => some graph)
    graph

def addPhiInputs (flow : FlowGraph) (definedVars : DefinedVars) (fuel : Nat) (block : BlockId) :
    Option FlowGraph := do
  let phis ← headPhis flow.graph fuel block
  let graph ← phis.foldlM (flow.addInputsOf definedVars fuel block) flow.graph
  some { flow with graph := graph }

/-- The last loop of `GeneratorConvertToSSA`. -/
def addAllPhiInputs (flow : FlowGraph) (definedVars : DefinedVars) (fuel : Nat)
    (blocks : List BlockId) : Option FlowGraph :=
  blocks.foldlM (fun flow block => flow.addPhiInputs definedVars fuel block) flow

def basicBlockRemoveEdge (flow : FlowGraph) (source target : BlockId) : FlowGraph :=
  { flow with
    inEdges := Function.update flow.inEdges target ((flow.inEdges target).erase source)
    outEdges := Function.update flow.outEdges source ((flow.outEdges source).erase target) }

end FlowGraph

end DaveCC.Optimization

/-!
## Simplifying constant branches

`SimplifyBranches` of `sccp.c` on the editable representation, and the test of `dce.c`
for a store that nothing loads. The removed edges are recorded with the state before
each removal.
-/

namespace DaveCC.Backend

def kStorageUnloaded : Nat := kStorageStatic ||| kStorageExtern ||| kStorageThread

/-- `IRIsVarDef`. -/
def EditedNode.isVarDef (node : EditedNode) : Bool :=
  node.flags &&& kIRVarDef != 0

/-- `IRGetVariableSymbol`. -/
def EditedNode.variableSymbol (node : EditedNode) : Option Symbol :=
  if !node.opcode.isVariable || node.opcode == .tmp || node.opcode == .structreturn then none
  else node.symbol

namespace IRGraph

/-! ## Dead stores -/

/-- The loop of `SymbolHasIncDec` from an instruction on. -/
def symbolHasIncDec (graph : IRGraph) (symbol : Symbol) : Nat → Option NodeId → Option Bool
  | _, none => some false
  | fuel, some inst => do
      let node ← graph.nodes inst
      if node.isVarDef && node.opcode.isStore && !node.opcode.isStoreOnly &&
          node.var == some symbol then some true
      else
        match fuel with
        | 0 => none
        | fuel + 1 => graph.symbolHasIncDec symbol fuel (graph.code.next inst)

/-- The symbols whose stores `IsDeadLocalStore` keeps. -/
def keepsStores (symbol : Symbol) : Bool :=
  symbol.addressTaken || symbol.isArgument || (!symbol.isLocal && !symbol.isTemp) ||
    symbol.storageIs kStorageUnloaded || symbol.type.isVolatile

/-- A user that only stores to the variable. -/
def storesTo (graph : IRGraph) (dest user : NodeId) : Option Bool :=
  (graph.nodes user).map fun node => node.opcode.isStoreOnly && node.inputs.head? == some dest

def isDeadLocalStore (graph : IRGraph) (fuel : Nat) (inst : NodeId) : Option Bool := do
  let node ← graph.nodes inst
  if !node.opcode.isStoreOnly then some false
  else
    match node.inputs with
    | [] => some false
    | dest :: _ => do
        let storage ← graph.nodes dest
        match storage.variableSymbol with
        | none => some false
        | some symbol =>
          if keepsStores symbol then some false
          else do
            let hasIncDec ← graph.symbolHasIncDec symbol fuel graph.code.first
            if hasIncDec then some false
            else storage.outputs.allM (graph.storesTo dest)

end IRGraph

end DaveCC.Backend

namespace DaveCC.Optimization

open DaveCC.Backend DaveCC.Loop Sccp

namespace FlowGraph

def removePhiPredecessor (graph : IRGraph) (fuel : Nat) (block : BlockId) (index : Nat) :
    Option IRGraph := do
  let phis ← headPhis graph fuel block
  phis.foldlM
    (fun graph phi =>
      if index < (graph.inputs phi).length then graph.irRemoveInput fuel phi index
      else some graph)
    graph

/-- The phi nodes of the target of an edge lose the operand at the position of the edge. -/
def removeOperands (flow : FlowGraph) (fuel : Nat) (source target : BlockId) : Option IRGraph :=
  let index := (flow.inEdges target).idxOf source
  if index < (flow.inEdges target).length then
    removePhiPredecessor flow.graph fuel target index
  else some flow.graph

/-- What `SimplifyBranches` does to an edge that it does not keep. -/
def removeBranchEdge (flow : FlowGraph) (fuel : Nat) (source target : BlockId) :
    Option FlowGraph := do
  let graph ← flow.removeOperands fuel source target
  some ({ flow with graph := graph }.basicBlockRemoveEdge source target)

end FlowGraph

/-- An edge that was removed, with the state before. -/
structure EdgeRemoval where
  before : FlowGraph
  source : BlockId
  target : BlockId

/-- A run of `SimplifyBranches`. The record of the removed edges is not in the source. -/
structure BranchPass extends FlowGraph where
  changed : Bool := false
  branchesSimplified : Nat := 0
  removals : List EdgeRemoval := []

namespace BranchPass

def removeEdge (pass : BranchPass) (fuel : Nat) (source target : BlockId) : Option BranchPass :=
  (pass.toFlowGraph.removeBranchEdge fuel source target).map fun flow =>
    { pass with
      toFlowGraph := flow
      changed := true
      removals := pass.removals ++ [⟨pass.toFlowGraph, source, target⟩] }

/-- `BasicBlockRemoveInstruction` on the branch of a block. -/
def removeBranch (pass : BranchPass) (block : BlockId) (branch : NodeId) : BranchPass :=
  { pass with graph := pass.graph.basicBlockRemoveInstruction block branch }

/-- The loop over the edges out of a block whose branch goes to the block `taken` exactly
when `take` holds. -/
def removeUntaken (pass : BranchPass) (fuel : Nat) (block taken : BlockId) (take : Bool) :
    Option BranchPass :=
  (runWhile (fun (state : BranchPass × Nat) => state.2 < (state.1.outEdges block).length)
    (fun state => do
      let successor ← (state.1.outEdges block)[state.2]?
      if (successor == taken) == take then some (state.1, state.2 + 1)
      else (state.1.removeEdge fuel block successor).map (·, state.2))
    fuel (pass, 0)).map Prod.fst

/-- The branch of a block whose condition is the constant `value`. -/
def simplifyConstant (pass : BranchPass) (fuel : Nat) (block : BlockId) (branch label : NodeId)
    (take : Bool) : Option BranchPass :=
  if (pass.outEdges block).length = 1 then
    let pass :=
      if take then pass else { pass.removeBranch block branch with changed := true }
    some { pass with branchesSimplified := pass.branchesSimplified + 1 }
  else do
    let taken ← pass.graph.blockOf label
    let pass ← pass.removeUntaken fuel block taken take
    let pass := if take then pass else pass.removeBranch block branch
    some { pass with branchesSimplified := pass.branchesSimplified + 1 }

/-- The body of the loop of `SimplifyBranches`. -/
def simplifyBranch (context : SCCPContext) (fuel : Nat) (pass : BranchPass) (block : BlockId) :
    Option BranchPass :=
  if block ∉ context.executableBlocks then some pass
  else
    match (pass.graph.spans block).endCode with
    | none => some pass
    | some branch => do
        let node ← pass.graph.nodes branch
        if !node.opcode.isConditionalBranch then some pass
        else
          match node.inputs with
          | condition :: label :: _ =>
            match context.valueOf condition with
            | .constant value =>
              pass.simplifyConstant fuel block branch label
                (SCCPContext.takesBranch node.opcode value)
            | _ => some pass
          | _ => some pass

end BranchPass

/-- `SimplifyBranches` over the blocks of the function. -/
def simplifyBranches (context : SCCPContext) (fuel : Nat) (flow : FlowGraph)
    (blocks : List BlockId) : Option BranchPass :=
  blocks.foldlM (BranchPass.simplifyBranch context fuel) { toFlowGraph := flow }

end DaveCC.Optimization
