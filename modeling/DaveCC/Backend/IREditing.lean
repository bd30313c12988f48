import DaveCC.Backend.IR
import DaveCC.Container.LinkedList
import DaveCC.Loop.While

/-!
# Editing the intermediate representation

The operations of `ir.c`, `codegen.c` and `basic_block.c` that change the edges
between nodes, the code list or the ends of a block. A node that has been released
is absent, and reading it gives no result, as does a failed assertion or an abort.
A loop that follows pointers runs for at most `fuel` iterations.
-/

namespace DaveCC.Backend

open DaveCC.Container DaveCC.Loop

def kIRInvalidValueDefinition : Nat := 1 <<< 15

/-- `ValueStateMerge`. -/
def ValueState.merge (left right : ValueState) : ValueState :=
  if left = right then left
  else if left = .indeterminate ∨ right = .indeterminate then .indeterminate
  else .erroneous

/-- A node under editing. Its neighbours are kept in the code list. -/
structure EditedNode where
  opcode : IROpcode
  inputs : List NodeId := []
  outputs : List NodeId := []
  block : Option BlockId := none
  type : Option TypeRecord := none
  valueState : ValueState := .valid
  flags : Nat := 0
  var : Option Symbol := none
  symbol : Option Symbol := none
  deriving DecidableEq

/-- The first and the last instruction of a block: `code` and `end_code`. -/
structure CodeSpan where
  code : Option NodeId := none
  endCode : Option NodeId := none
  deriving DecidableEq

/-- The nodes of a function, its code list and the ends of its blocks. -/
structure IRGraph where
  nodes : NodeId → Option EditedNode
  code : LinkedList NodeId
  spans : BlockId → CodeSpan

namespace IRGraph

def inputs (graph : IRGraph) (id : NodeId) : List NodeId :=
  ((graph.nodes id).map EditedNode.inputs).getD []

def outputs (graph : IRGraph) (id : NodeId) : List NodeId :=
  ((graph.nodes id).map EditedNode.outputs).getD []

def blockOf (graph : IRGraph) (id : NodeId) : Option BlockId :=
  (graph.nodes id).bind EditedNode.block

def modify (graph : IRGraph) (id : NodeId) (change : EditedNode → EditedNode) : IRGraph :=
  { graph with nodes := Function.update graph.nodes id ((graph.nodes id).map change) }

def setSpan (graph : IRGraph) (block : BlockId) (span : CodeSpan) : IRGraph :=
  { graph with spans := Function.update graph.spans block span }

/-- `IRInList`: false of the only instruction of a list. -/
def irInList (graph : IRGraph) (id : NodeId) : Bool :=
  (graph.code.next id).isSome || (graph.code.prev id).isSome

def allocate (graph : IRGraph) (id : NodeId) (node : EditedNode) : IRGraph :=
  { graph with
    nodes := Function.update graph.nodes id (some node)
    code := graph.code.elementInit id }

def newIR (graph : IRGraph) (id : NodeId) (opcode : IROpcode) : IRGraph :=
  graph.allocate id { opcode := opcode }

/-- `NewIRPhi` and `IRSetVarDef`. -/
def newIRPhi (graph : IRGraph) (id : NodeId) (symbol : Symbol) : IRGraph :=
  graph.allocate id
    { opcode := .phi
      symbol := some symbol
      type := some symbol.type
      var := some symbol
      flags := kIRVarDef }

def irSetType (type : Option TypeRecord) (node : EditedNode) : EditedNode :=
  match type with
  | none => node
  | some type => { node with type := some type }

/-- The node at the end of a chain of `addressof` nodes. -/
def storage (graph : IRGraph) (fuel : Nat) (id : NodeId) : Option NodeId :=
  runWhile
    (fun id =>
      (graph.nodes id).any fun node => node.opcode == .addressof && !node.inputs.isEmpty)
    (fun id => (graph.inputs id).head?) fuel id

def setStorageState (graph : IRGraph) (storage : NodeId) (state : ValueState) : IRGraph :=
  graph.modify storage fun node =>
    if node.opcode.isVariable then { node with valueState := state } else node

def irRecomputeValueState (graph : IRGraph) (fuel : Nat) (id : NodeId) : Option IRGraph := do
  let node ← graph.nodes id
  match node.inputs with
  | [] => some graph
  | first :: rest =>
    if node.opcode == .addressof || node.opcode == .observableCheckpoint then
      some graph
    else if node.flags &&& kIRInvalidValueDefinition != 0 then
      let storage ← graph.storage fuel first
      some (graph.setStorageState storage node.valueState)
    else if (node.opcode.isStoreOnly || node.opcode == .memcpy ||
        node.opcode == .atomicStore) && !rest.isEmpty then
      let second ← rest.head?
      let source ← graph.nodes second
      let graph := graph.modify id fun node => { node with valueState := source.valueState }
      let storage ← graph.storage fuel first
      some (graph.setStorageState storage source.valueState)
    else
      let operands ← (first :: rest).mapM graph.nodes
      let state := operands.foldl (fun state operand => state.merge operand.valueState) .valid
      some (graph.modify id fun node => { node with valueState := state })

def editInputs (graph : IRGraph) (id : NodeId) (edit : List NodeId → List NodeId) : IRGraph :=
  graph.modify id fun node => { node with inputs := edit node.inputs }

def editOutputs (graph : IRGraph) (id : NodeId) (edit : List NodeId → List NodeId) : IRGraph :=
  graph.modify id fun node => { node with outputs := edit node.outputs }

/-- `IRAddInput`. Only a label may be used before it is in the list. -/
def irAddInput (graph : IRGraph) (fuel : Nat) (user operand : NodeId) (copyType : Bool) :
    Option IRGraph := do
  let target ← graph.nodes operand
  let _ ← graph.nodes user
  guard (target.opcode == .label || graph.irInList operand)
  let graph := graph.editInputs user (· ++ [operand])
  let graph := graph.editOutputs operand (· ++ [user])
  let graph := if copyType then graph.modify user (irSetType target.type) else graph
  graph.irRecomputeValueState fuel user

/-- `IRReplaceInput`. It aborts when the operand does not know its user. -/
def irReplaceInput (graph : IRGraph) (fuel : Nat) (user : NodeId) (index : Nat) (new : NodeId) :
    Option IRGraph := do
  let existing ← (graph.inputs user)[index]?
  guard (user ∈ graph.outputs existing)
  let graph := graph.editOutputs existing (·.erase user)
  let graph := graph.editInputs user (·.set index new)
  let _ ← graph.nodes new
  let graph := graph.editOutputs new (· ++ [user])
  graph.irRecomputeValueState fuel user

/-- `IRRemoveInput`. It aborts when the operand does not know its user. -/
def irRemoveInput (graph : IRGraph) (fuel : Nat) (user : NodeId) (index : Nat) :
    Option IRGraph := do
  let operand ← (graph.inputs user)[index]?
  guard (user ∈ graph.outputs operand)
  let graph := graph.editOutputs operand (·.erase user)
  let graph := graph.editInputs user (·.eraseIdx index)
  graph.irRecomputeValueState fuel user

/-- `IRRemoveNode`. The node keeps its own lists. -/
def irRemoveNode (graph : IRGraph) (id : NodeId) : IRGraph :=
  let graph := (graph.inputs id).foldl
    (fun graph operand => graph.editOutputs operand (·.erase id)) graph
  (graph.outputs id).foldl (fun graph user => graph.editInputs user (·.erase id)) graph

/-- `IRDestruct` and `free`. -/
def release (graph : IRGraph) (id : NodeId) : IRGraph :=
  { graph with nodes := Function.update graph.nodes id none }

/-! ## Instructions of the generator -/

def generatorEmitBefore (graph : IRGraph) (inst pos : NodeId) : IRGraph :=
  if graph.irInList inst then graph
  else { graph with code := graph.code.insertBefore inst pos }

def generatorRemoveInstruction (graph : IRGraph) (inst : NodeId) : IRGraph :=
  let graph := { graph with code := graph.code.deleteElement inst }
  (graph.irRemoveNode inst).release inst

def generatorMoveInstructionBefore (graph : IRGraph) (inst pos : NodeId) : IRGraph :=
  { graph with code := (graph.code.deleteElement inst).insertBefore inst pos }

def generatorMoveInstructionAfter (graph : IRGraph) (inst pos : NodeId) : IRGraph :=
  { graph with code := (graph.code.deleteElement inst).insertAfter inst pos }

/-- Every input `old` of one user becomes `new`. -/
def replaceOperand (graph : IRGraph) (old new user : NodeId) : IRGraph :=
  let uses := (graph.inputs user).count old
  let graph := graph.editInputs user (·.map fun input => if input = old then new else input)
  graph.editOutputs new (· ++ List.replicate uses user)

/-- `GeneratorReplaceInstruction`. A used node that replaces itself gains users
without end. -/
def generatorReplaceInstruction (graph : IRGraph) (old new : NodeId) : Option IRGraph := do
  guard (old ≠ new || (graph.outputs old).isEmpty)
  let graph := (graph.outputs old).foldl (fun graph user => graph.replaceOperand old new user) graph
  some (graph.editOutputs old fun _ => [])

/-- The ends of a block that `inst` is about to leave. -/
def leaveSpan (graph : IRGraph) (span : CodeSpan) (inst : NodeId) : CodeSpan :=
  let span :=
    if span.code = some inst then
      if span.endCode = some inst then { code := none, endCode := none }
      else { span with code := graph.code.next inst }
    else span
  if span.endCode = some inst then { span with endCode := graph.code.prev inst } else span

def basicBlockRemoveInstruction (graph : IRGraph) (block : BlockId) (inst : NodeId) : IRGraph :=
  let graph := graph.setSpan block (graph.leaveSpan (graph.spans block) inst)
  graph.generatorRemoveInstruction inst

def basicBlockMoveInstructionAfter (graph : IRGraph) (inst pos : NodeId) : Option IRGraph := do
  let source ← graph.blockOf inst
  let graph := graph.setSpan source (graph.leaveSpan (graph.spans source) inst)
  let graph := graph.generatorMoveInstructionAfter inst pos
  let target ← graph.blockOf pos
  let graph := graph.modify inst fun node => { node with block := some target }
  let span := graph.spans target
  some (if span.endCode = some pos then graph.setSpan target { span with endCode := some inst }
    else graph)

def basicBlockMoveInstructionBefore (graph : IRGraph) (inst pos : NodeId) : Option IRGraph := do
  let source ← graph.blockOf inst
  let graph := graph.setSpan source (graph.leaveSpan (graph.spans source) inst)
  let graph := graph.generatorMoveInstructionBefore inst pos
  let target ← graph.blockOf pos
  let graph := graph.modify inst fun node => { node with block := some target }
  let span := graph.spans target
  some (if span.code = some pos then graph.setSpan target { span with code := some inst }
    else graph)

/-- The ends that `BasicBlockReplaceInstruction` sets, also when they were one
instruction. -/
def replaceSpan (graph : IRGraph) (span : CodeSpan) (old : NodeId) : CodeSpan :=
  let span := if span.code = some old then { span with code := graph.code.next old } else span
  if span.endCode = some old then { span with endCode := graph.code.prev old } else span

def basicBlockReplaceInstruction (graph : IRGraph) (block : BlockId) (old new : NodeId) :
    Option IRGraph := do
  let graph := graph.setSpan block (graph.replaceSpan (graph.spans block) old)
  let graph ← graph.generatorReplaceInstruction old new
  some (graph.basicBlockRemoveInstruction block old)

def basicBlockEmitBefore (graph : IRGraph) (block : BlockId) (inst pos : NodeId) : IRGraph :=
  let span := graph.spans block
  let graph :=
    if span.code = some pos then graph.setSpan block { span with code := some inst } else graph
  let graph := graph.generatorEmitBefore inst pos
  graph.modify inst fun node => { node with block := some block }

/-- Whether the phi nodes from an instruction on have one for the symbol. -/
def findPhi (graph : IRGraph) (symbol : Symbol) : Nat → NodeId → Option Bool
  | fuel, id => do
      let node ← graph.nodes id
      if node.opcode == .phi then
        if node.symbol = some symbol then some true
        else
          match fuel with
          | 0 => none
          | fuel + 1 => do
              let next ← graph.code.next id
              graph.findPhi symbol fuel next
      else some false

/-- `BasicBlockInsertPhi`, where `phi` is the node it may allocate. -/
def basicBlockInsertPhi (graph : IRGraph) (fuel : Nat) (block : BlockId) (symbol : Symbol)
    (phi : NodeId) : Option (IRGraph × Bool) :=
  match (graph.spans block).code with
  | none => some (graph, false)
  | some code => do
      let added ← graph.findPhi symbol fuel code
      if added then some (graph, false)
      else
        let graph := graph.newIRPhi phi symbol
        let graph := graph.generatorEmitBefore phi code
        let graph := graph.setSpan block { graph.spans block with code := some phi }
        some (graph.modify phi fun node => { node with block := some block }, true)

/-- One call of an operation. `irRemoveNode` is called on an instruction that is
then deleted from the list and released. -/
inductive Edit where
  | newIR (id : NodeId) (opcode : IROpcode)
  | irAddInput (user operand : NodeId) (copyType : Bool)
  | irReplaceInput (user : NodeId) (index : Nat) (new : NodeId)
  | irRemoveInput (user : NodeId) (index : Nat)
  | irRemoveNode (id : NodeId)
  | generatorReplaceInstruction (old new : NodeId)
  | basicBlockRemoveInstruction (block : BlockId) (inst : NodeId)
  | basicBlockReplaceInstruction (block : BlockId) (old new : NodeId)
  | basicBlockMoveInstructionBefore (inst pos : NodeId)
  | basicBlockMoveInstructionAfter (inst pos : NodeId)
  | basicBlockEmitBefore (block : BlockId) (inst pos : NodeId)
  | basicBlockInsertPhi (block : BlockId) (symbol : Symbol) (phi : NodeId)

def Edit.apply (fuel : Nat) (graph : IRGraph) : Edit → Option IRGraph
  | .newIR id opcode => some (graph.newIR id opcode)
  | .irAddInput user operand copyType => graph.irAddInput fuel user operand copyType
  | .irReplaceInput user index new => graph.irReplaceInput fuel user index new
  | .irRemoveInput user index => graph.irRemoveInput fuel user index
  | .irRemoveNode id =>
    let graph := graph.irRemoveNode id
    let graph := { graph with code := graph.code.deleteElement id }
    some (graph.release id)
  | .generatorReplaceInstruction old new => graph.generatorReplaceInstruction old new
  | .basicBlockRemoveInstruction block inst =>
    some (graph.basicBlockRemoveInstruction block inst)
  | .basicBlockReplaceInstruction block old new =>
    graph.basicBlockReplaceInstruction block old new
  | .basicBlockMoveInstructionBefore inst pos =>
    graph.basicBlockMoveInstructionBefore inst pos
  | .basicBlockMoveInstructionAfter inst pos =>
    graph.basicBlockMoveInstructionAfter inst pos
  | .basicBlockEmitBefore block inst pos => some (graph.basicBlockEmitBefore block inst pos)
  | .basicBlockInsertPhi block symbol phi =>
    (graph.basicBlockInsertPhi fuel block symbol phi).map Prod.fst

end IRGraph

end DaveCC.Backend
