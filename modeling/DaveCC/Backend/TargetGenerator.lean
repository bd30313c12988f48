import DaveCC.Backend.BlockSpans
import DaveCC.Backend.TargetUsers
import DaveCC.Container.ProbeErasing

/-!
# Target instructions and the operations on them

The operations of `target_generator.c` and `target_basic_block.c` that change the
operands and the users of instructions, the code list, the index of symbols or the ends
of a block. A deleted instruction keeps its fields until the generator is destructed.
-/

namespace DaveCC.Backend

open DaveCC.Container

abbrev targetMaxOperands : Nat := 4

/-- The address of a `Symbol`. -/
structure SymbolPointer where
  value : UInt64
  nonNull : value ≠ 0
  deriving DecidableEq

/-- `HashTargetSymbol`, where pointers have 64 bits. -/
def hashTargetSymbol (symbol : SymbolPointer) : Nat :=
  let value := symbol.value
  let value := value ^^^ (value >>> 33)
  let value := value * 0xff51afd7ed558ccd
  let value := value ^^^ (value >>> 33)
  let value := value * 0xc4ceb9fe1a85ec53
  let value := value ^^^ (value >>> 33)
  value.toNat

/-- `TARGET_OP(symbol)`, and every other opcode of the generator or of a machine. -/
inductive TargetOpcode where
  | symbol
  | other (number : Nat)
  deriving DecidableEq

/-- `TargetInstruction`, with the symbol of a `TargetSymbol`. Its neighbours are kept in
the code list. -/
structure TargetInstruction extends TargetUses where
  opcode : TargetOpcode
  symbol : Option SymbolPointer := none
  operand : Fin targetMaxOperands → Option TargetId := fun _ => none
  dest : Option TargetId := none
  block : Option BlockId := none

/-- The parts of a `TargetGenerator` that hold instructions, and the ends of its blocks. -/
structure TargetGenerator where
  instructions : TargetId → TargetInstruction
  nextInstructionId : TargetId := 1
  code : LinkedList TargetId := {}
  deletedInstructions : List TargetId := []
  lastConstant : Option TargetId := none
  firstSymbol : Option TargetId := none
  lastSymbol : Option TargetId := none
  symbolIndex : ProbeTable SymbolPointer TargetId := {}
  spans : BlockId → CodeSpan := fun _ => {}

namespace TargetGenerator

def targetGeneratorInit : TargetGenerator where
  instructions _ := { opcode := .other 0 }

def users (target : TargetGenerator) (id : TargetId) : List TargetId :=
  (target.instructions id).users

def operand (target : TargetGenerator) (id : TargetId) (index : Fin targetMaxOperands) :
    Option TargetId :=
  (target.instructions id).operand index

def blockOf (target : TargetGenerator) (id : TargetId) : Option BlockId :=
  (target.instructions id).block

def modify (target : TargetGenerator) (id : TargetId)
    (change : TargetInstruction → TargetInstruction) : TargetGenerator :=
  { target with
    instructions := Function.update target.instructions id (change (target.instructions id)) }

def modifyUses (target : TargetGenerator) (id : TargetId) (change : TargetUses → TargetUses) :
    TargetGenerator :=
  target.modify id fun inst => { inst with toTargetUses := change inst.toTargetUses }

def setOperand (target : TargetGenerator) (id : TargetId) (index : Fin targetMaxOperands)
    (value : Option TargetId) : TargetGenerator :=
  target.modify id fun inst => { inst with operand := Function.update inst.operand index value }

def setDest (target : TargetGenerator) (id : TargetId) (dest : Option TargetId) :
    TargetGenerator :=
  target.modify id fun inst => { inst with dest := dest }

def setBlock (target : TargetGenerator) (id : TargetId) (block : BlockId) : TargetGenerator :=
  target.modify id fun inst => { inst with block := some block }

def setSpan (target : TargetGenerator) (block : BlockId) (span : CodeSpan) : TargetGenerator :=
  { target with spans := Function.update target.spans block span }

def targetAddUser (target : TargetGenerator) (inst user : TargetId) : TargetGenerator :=
  target.modifyUses inst (·.addUser user)

def targetRemoveUser (target : TargetGenerator) (inst user : TargetId) : TargetGenerator :=
  target.modifyUses inst (·.removeUser user)

def targetUpdateOperandUsers (target : TargetGenerator) (inst : TargetId) : TargetGenerator :=
  (List.finRange targetMaxOperands).foldl
    (fun target index =>
      match target.operand inst index with
      | none => target
      | some operand => target.targetAddUser operand inst)
    target

/-- One slot of one user in `TargetRetargetInstruction`. -/
def retargetSlot (old new user : TargetId) (target : TargetGenerator)
    (index : Fin targetMaxOperands) : TargetGenerator :=
  let target :=
    if target.operand user index = some old then
      (target.setOperand user index (some new)).targetAddUser new user
    else target
  if (target.instructions user).dest = some old then target.setDest user (some new) else target

/-- `TargetRetargetInstruction`. The loop adds users to `new` only, and none to `old` that
it does not have. -/
def targetRetargetInstruction (target : TargetGenerator) (old new : TargetId) :
    TargetGenerator :=
  let target := (target.users old).foldl
    (fun target user =>
      (List.finRange targetMaxOperands).foldl (retargetSlot old new user) target)
    target
  target.modifyUses old fun inst => { inst.clearUsers with uses := 0 }

/-- One slot of one user in `TargetRetargetInstructionIf`, with the number of slots that
have been retargeted. -/
def retargetSlotIf (old new : TargetId) (predicate : TargetId → Bool) (user : TargetId)
    (state : TargetGenerator × Nat) (index : Fin targetMaxOperands) : TargetGenerator × Nat :=
  if state.1.operand user index = some old ∧ predicate user then
    ((state.1.setOperand user index (some new)).targetAddUser new user, state.2 + 1)
  else state

/-- `TargetRetargetInstructionIf`, with the answers of the predicate for the data of the
call. -/
def targetRetargetInstructionIf (target : TargetGenerator) (old new : TargetId)
    (predicate : TargetId → Bool) : TargetGenerator :=
  let (target, numRetargeted) := (target.users old).foldl
    (fun state user =>
      (List.finRange targetMaxOperands).foldl (retargetSlotIf old new predicate user) state)
    (target, 0)
  let target := target.modifyUses old fun inst =>
    { inst with uses := (inst.users.length : Int) - numRetargeted }
  if (target.instructions old).uses = 0 then target.modifyUses old TargetUses.clearUsers
  else target

/-- `TargetReplaceOperand`. It does not return when the slot is empty or an instruction
would become its own operand. -/
def targetReplaceOperand (target : TargetGenerator) (inst : TargetId)
    (index : Fin targetMaxOperands) (new : Option TargetId) : Option TargetGenerator :=
  if target.operand inst index = new then some target
  else if new = some inst then none
  else
    match target.operand inst index with
    | none => none
    | some old =>
      let target := target.targetRemoveUser old inst
      let target := target.setOperand inst index new
      match new with
      | none => some target
      | some new => some (target.targetAddUser new inst)

/-- What `TargetApplyFixups` does for one fixup of the label. -/
def targetApplyFixup (target : TargetGenerator) (inst : TargetId)
    (index : Fin targetMaxOperands) (label : TargetId) : TargetGenerator :=
  (target.setOperand inst index (some label)).targetAddUser label inst

/-! ## New instructions -/

/-- `TargetInitInstruction`, of the next id. -/
def targetInitInstruction (target : TargetGenerator) (inst : TargetInstruction) :
    TargetGenerator :=
  { target with
    instructions := Function.update target.instructions target.nextInstructionId inst
    nextInstructionId := target.nextInstructionId + 1
    code := target.code.elementInit target.nextInstructionId }

/-- `TargetNewInstruction` to `TargetNewInstruction4`. -/
def targetNewInstruction (target : TargetGenerator) (opcode : TargetOpcode)
    (operand : Fin targetMaxOperands → Option TargetId) : TargetGenerator :=
  let inst := target.nextInstructionId
  let target := target.targetInitInstruction { opcode := opcode, operand := operand }
  target.targetUpdateOperandUsers inst

/-- Whether the instruction has a neighbour, which tells that it is in the list. -/
def inList (target : TargetGenerator) (inst : TargetId) : Bool :=
  (target.code.next inst).isSome || (target.code.prev inst).isSome

def targetEmit (target : TargetGenerator) (inst : TargetId) : TargetGenerator :=
  if target.inList inst then target else { target with code := target.code.append inst }

def targetEmitBefore (target : TargetGenerator) (inst : TargetId) (pos : Option TargetId) :
    TargetGenerator :=
  if target.inList inst then target
  else
    match pos with
    | none => target.targetEmit inst
    | some pos => { target with code := target.code.insertBefore inst pos }

def targetEmitAfter (target : TargetGenerator) (inst : TargetId) (pos : Option TargetId) :
    TargetGenerator :=
  if target.inList inst then target
  else
    match pos with
    | none => { target with code := target.code.append inst }
    | some pos => { target with code := target.code.insertAfter inst pos }

def targetEmitConstant (target : TargetGenerator) (inst : TargetId) : TargetGenerator :=
  { target.targetEmitAfter inst target.lastConstant with lastConstant := some inst }

def targetEmitSymbol (target : TargetGenerator) (inst : TargetId) : TargetGenerator :=
  match target.lastSymbol with
  | none =>
    { target.targetEmitAfter inst target.lastConstant with
      firstSymbol := some inst
      lastSymbol := some inst }
  | some last => { target.targetEmitAfter inst (some last) with lastSymbol := some inst }

def targetGetSymbol (target : TargetGenerator) (symbol : SymbolPointer) : TargetGenerator :=
  match target.symbolIndex.find hashTargetSymbol symbol with
  | some _ => target
  | none =>
    let inst := target.nextInstructionId
    let target := target.targetInitInstruction { opcode := .symbol, symbol := some symbol }
    let target := target.targetEmitSymbol inst
    { target with symbolIndex := target.symbolIndex.insert hashTargetSymbol symbol inst }

/-- The ends of a run that `inst` is about to leave. -/
def leaveSpan (target : TargetGenerator) (span : CodeSpan) (inst : TargetId) : CodeSpan :=
  let span :=
    if span.code = some inst then
      if span.endCode = some inst then { code := none, endCode := none }
      else { span with code := target.code.next inst }
    else span
  if span.endCode = some inst then { span with endCode := target.code.prev inst } else span

/-- `TargetSymbolIndexRemove`, for an instruction that defines a symbol. -/
def targetSymbolIndexRemove (target : TargetGenerator) (inst : TargetId) : TargetGenerator :=
  match (target.instructions inst).opcode, (target.instructions inst).symbol with
  | .symbol, some symbol =>
    { target with symbolIndex := target.symbolIndex.erase hashTargetSymbol symbol inst }
  | _, _ => target

/-- The first and the last symbol of a list that the instruction is about to leave. -/
def leaveSymbols (target : TargetGenerator) (inst : TargetId) : TargetGenerator :=
  if target.firstSymbol = some inst ∧ target.lastSymbol = some inst then
    { target with firstSymbol := none, lastSymbol := none }
  else
    let target :=
      if target.firstSymbol = some inst then
        { target with firstSymbol := target.code.next inst }
      else target
    if target.lastSymbol = some inst then { target with lastSymbol := target.code.prev inst }
    else target

/-- The instruction is removed from the users of its operands. -/
def dropOperandUsers (target : TargetGenerator) (inst : TargetId) : TargetGenerator :=
  (List.finRange targetMaxOperands).foldl
    (fun target index =>
      match target.operand inst index with
      | none => target
      | some operand => target.targetRemoveUser operand inst)
    target

def targetDeleteInstruction (target : TargetGenerator) (inst : TargetId) : TargetGenerator :=
  let target := target.targetSymbolIndexRemove inst
  let target := target.leaveSymbols inst
  let target := target.dropOperandUsers inst
  let target := target.modifyUses inst TargetUses.destructUsers
  { target with
    code := target.code.deleteElement inst
    deletedInstructions := target.deletedInstructions ++ [inst] }

/-- The instructions from one on, as many as there may be. -/
def walk (target : TargetGenerator) : Nat → Option TargetId → List TargetId
  | 0, _ | _, none => []
  | fuel + 1, some inst => inst :: target.walk fuel (target.code.next inst)

def targetReplaceInstruction (target : TargetGenerator) (old new : TargetId) :
    TargetGenerator :=
  let target := target.targetRetargetInstruction old new
  let target := (target.walk target.nextInstructionId target.code.first).foldl
    (fun target inst =>
      if (target.instructions inst).dest = some old then target.setDest inst (some new)
      else target)
    target
  target.targetDeleteInstruction old

/-- `TargetBasicBlockRemoveInstruction`. The users of the instruction are removed while
its list of users is read by position. -/
def targetBasicBlockRemoveInstruction :
    Nat → TargetGenerator → BlockId → TargetId → Option TargetGenerator
  | 0, _, _, _ => none
  | fuel + 1, target, block, inst => do
      let target := target.setSpan block (target.leaveSpan (target.spans block) inst)
      let (target, _) ← Loop.runWhile (fun (target, i) => decide (i < (target.users inst).length))
        (fun (target, i) => do
          let user ← (target.users inst)[i]?
          if ∃ j, target.operand user j = some inst then do
            let userBlock ← target.blockOf user
            let target ← targetBasicBlockRemoveInstruction fuel target userBlock user
            some (target, i + 1)
          else if (target.instructions user).dest = some inst then
            some (target.setDest user none, i + 1)
          else some (target, i + 1))
        fuel (target, 0)
      let target := target.modifyUses inst TargetUses.clearUsers
      some (target.targetDeleteInstruction inst)

def targetBasicBlockReplaceInstruction (fuel : Nat) (target : TargetGenerator)
    (block : BlockId) (old new : TargetId) : Option TargetGenerator :=
  let span := target.spans block
  let span := if span.code = some old then { span with code := target.code.next old } else span
  let span :=
    if span.endCode = some old then { span with endCode := target.code.prev old } else span
  let target := target.setSpan block span
  let target := target.targetReplaceInstruction old new
  targetBasicBlockRemoveInstruction fuel target block old

def targetBasicBlockEmitBefore (target : TargetGenerator) (block : BlockId)
    (inst pos : TargetId) : TargetGenerator :=
  let target := target.setSpan block ((target.spans block).extendBefore inst pos)
  let target := target.targetEmitBefore inst (some pos)
  target.setBlock inst block

def targetBasicBlockEmitAfter (target : TargetGenerator) (block : BlockId)
    (inst pos : TargetId) : TargetGenerator :=
  let target := target.setSpan block ((target.spans block).extendAfter inst pos)
  let target := target.targetEmitAfter inst (some pos)
  target.setBlock inst block

end TargetGenerator

end DaveCC.Backend
