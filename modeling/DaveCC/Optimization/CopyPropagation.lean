import DaveCC.Backend.InstructionOrder
import DaveCC.Optimization.IntegerTerms
import DaveCC.Optimization.Sccp

/-!
# Copy propagation

`copyprop.c` looks for moves, and for loads of a version of a variable, that it may
replace by the node they copy. The decisions are functions of the code; the comparison of
types is a parameter.
-/

namespace DaveCC.Optimization

open DaveCC.Backend DaveCC.Optimization.Sccp

/-- What the decisions read next to the code: whether the function has exception ranges,
the names of the symbols and `TypeEqual`. -/
structure CopyContext where
  gen : Generator
  hasExceptionRanges : Bool
  symbolName : Nat → String
  typeEqual : TypeRecord → TypeRecord → Bool

def isMoveOpcode : IROpcode → Bool
  | .movi | .movf | .movd | .mova => true
  | _ => false

namespace CopyContext

variable (context : CopyContext)

/-- The types are present, not volatile, and `TypeEqual`. -/
def sameType (source inst : IRNode) : Bool :=
  match source.type, inst.type with
  | some sourceType, some type =>
    !type.isVolatile && !sourceType.isVolatile && context.typeEqual sourceType type
  | _, _ => false

/-- The block in whose instructions a node stands, if any. -/
def blockOf (id : NodeId) : Option BlockId :=
  let block := (context.gen.nodes id).block
  if id ∈ (context.gen.block block).instructions then some block else none

/-- `InstructionPrecedesInFunction`. -/
def precedesInFunction (before after : NodeId) : Bool :=
  ((SCCPContext.instructionIds context.gen).dropWhile (· != before)).contains after

/-- `InstructionPrecedesInBlock`, of two nodes in the block. -/
def precedesInBlock (block : BlockId) (before after : NodeId) : Bool :=
  ((context.gen.block block).instructions.dropWhile (· != before)).contains after

def blockDominates (dominator block : Option BlockId) : Bool :=
  match dominator, block with
  | some dominator, some block => dominator ∈ (context.gen.block block).dominators
  | _, _ => false

/-- `CanPropagateMove`: the source that may take the place of the move. -/
def canPropagateMove (id : NodeId) : Option NodeId :=
  let inst := context.gen.nodes id
  match inst.inputs, inst.outputs with
  | [source], [user] =>
    let sourceNode := context.gen.nodes source
    if !isMoveOpcode inst.opcode || inst.dest.isSome || inst.flags != 0 then none
    else if !context.sameType sourceNode inst || context.gen.hasSideEffects sourceNode then none
    else if context.blockOf source == context.blockOf id &&
        context.blockOf user == context.blockOf id then
      if !irCheckpointBetween context.gen source id &&
          !irCheckpointBetween context.gen id user then some source
      else none
    else if context.hasExceptionRanges then none
    else if sourceNode.opcode.isConst then
      if (context.blockOf user).isSome then some source else none
    else if !context.blockDominates (context.blockOf source) (context.blockOf id) ||
        !context.blockDominates (context.blockOf id) (context.blockOf user) then none
    else if context.precedesInFunction source id && context.precedesInFunction id user then
      some source
    else none
  | _, _ => none

def isSafeSSAVariable (node : IRNode) : Bool :=
  node.opcode == .ssavar && isSafeSSASymbol node.symbol &&
    !node.symbol.any fun symbol => symbol.type.isVolatile

def hasSingleNamedSSAVersion (version : NodeId) : Bool :=
  let name := (context.gen.nodes version).symbol.map fun symbol => context.symbolName symbol.id
  ((SCCPContext.instructionIds context.gen).filter fun id =>
    let inst := context.gen.nodes id
    (inst.opcode == .ssavar || inst.opcode == .phi) && inst.symbol.isSome &&
      (inst.symbol.map fun symbol => context.symbolName symbol.id) == name).length == 1

/-- The users of a version that are stores of a pointer to it. -/
def pointerStores (version : NodeId) : List NodeId :=
  (context.gen.nodes version).outputs.filter fun candidate =>
    (context.gen.nodes candidate).opcode == .storea &&
      (context.gen.nodes candidate).inputs.length == 2 &&
        (context.gen.nodes candidate).inputs.head? == some version

/-- `PropagateSSALoad`: the source that takes the place of the load. -/
def propagateSSALoad (block : BlockId) (load : NodeId) : Option NodeId :=
  let inst := context.gen.nodes load
  match inst.inputs with
  | [version] =>
    if inst.opcode != .loada || inst.dest.isSome then none
    else if !isSafeSSAVariable (context.gen.nodes version) ||
        !context.hasSingleNamedSSAVersion version then none
    else
      match context.pointerStores version with
      | [store] =>
        match (context.gen.nodes store).inputs with
        | [_, source] =>
          if context.blockOf store != some block || context.blockOf load != some block ||
              !context.precedesInBlock block store load ||
                irCheckpointBetween context.gen store load then none
          else if context.blockOf source != some block ||
              !context.sameType (context.gen.nodes source) inst ||
                context.gen.hasSideEffects (context.gen.nodes source) ||
                  irCheckpointBetween context.gen source load then none
          else some source
        | _ => none
      | _ => none
  | _ => none

/-- The source that `CopyPropagationOptimization` puts in the place of an instruction of
the block. -/
def propagated (block : BlockId) (id : NodeId) : Option NodeId :=
  (context.propagateSSALoad block id).or (context.canPropagateMove id)

end CopyContext

end DaveCC.Optimization

/-!
## Runs over registers and variables

Every instruction leaves its value in a register: its own, or that of the temporary it has
as its destination, which several instructions may share. A move copies a register. A
store of a pointer to a safe variable, and a load of it, copy as well; every other
instruction evaluates to anything, and one that writes a variable may write anything.
-/

namespace DaveCC.Optimization

open DaveCC.Backend DaveCC.Optimization.Sccp

variable {Value : Type*}

/-- The registers, and what the variables hold. -/
structure CopyState (Value : Type*) where
  registers : NodeId → Option Value
  contents : Nat → Option Value

/-- Where a run is, and its state. -/
structure CopyConfig (Value : Type*) where
  place : Place
  state : CopyState Value

namespace Copies

variable (gen : Generator) (fixed : NodeId → Value)

/-- The register in which a node has its value. -/
def register (id : NodeId) : NodeId :=
  (gen.nodes id).dest.getD id

/-- A run passes the node without doing anything. -/
def isStanding (id : NodeId) : Bool :=
  (gen.nodes id).opcode.isConst || (gen.nodes id).opcode.isVariable

/-- The node is a constant, or a variable, which stands for its address. -/
def isFixed (id : NodeId) : Bool :=
  isStanding gen id && (gen.nodes id).opcode != .tmp

/-- The value that an instruction finds in an operand. -/
def operand (state : CopyState Value) (id : NodeId) : Option Value :=
  if isFixed gen id then some (fixed id) else state.registers (register gen id)

/-- The instruction may write the variable. -/
def writesVariable (id : NodeId) (symbol : Symbol) : Bool :=
  (gen.nodes id).opcode.isStore && (gen.nodes id).inputs.head?.any fun target =>
    (gen.nodes target).symbol.any fun other => other.id == symbol.id

/-- The values that an instruction may evaluate to. -/
structure Produces (before : CopyState Value) (id : NodeId) (value : Value) : Prop where
  move : isMoveOpcode (gen.nodes id).opcode = true →
    ∀ source, (gen.nodes id).inputs = [source] → operand gen fixed before source = some value
  load : (gen.nodes id).opcode = .loada →
    ∀ version symbol, (gen.nodes id).inputs = [version] →
      (gen.nodes version).symbol = some symbol → isSafeSSASymbol (some symbol) = true →
        before.contents symbol.id = some value

/-- What an instruction may leave in the variables. -/
structure Stores (before : CopyState Value) (id : NodeId) (contents : Nat → Option Value) :
    Prop where
  kept : ∀ symbol, isSafeSSASymbol (some symbol) = true → writesVariable gen id symbol = false →
    contents symbol.id = before.contents symbol.id
  stored : (gen.nodes id).opcode = .storea →
    ∀ version source symbol, (gen.nodes id).inputs = [version, source] →
      (gen.nodes version).symbol = some symbol → isSafeSSASymbol (some symbol) = true →
        ∃ value, operand gen fixed before source = some value ∧ contents symbol.id = some value

/-- An instruction takes one state to another. -/
inductive Executes (before : CopyState Value) (id : NodeId) : CopyState Value → Prop where
  | standing (stands : isStanding gen id = true) : Executes before id before
  | evaluates {after : CopyState Value} {value : Value} (evaluated : isStanding gen id = false)
      (produces : Produces gen fixed before id value)
      (registers : after.registers =
        Function.update before.registers (register gen id) (some value))
      (stores : Stores gen fixed before id after.contents) : Executes before id after

/-- One step of a run: an instruction, or an edge when the block is done. -/
inductive Step : CopyConfig Value → CopyConfig Value → Prop where
  | instruction {block : BlockId} {id : NodeId} {rest : List NodeId}
      {before after : CopyState Value} (executes : Executes gen fixed before id after) :
      Step ⟨(block, id :: rest), before⟩ ⟨(block, rest), after⟩
  | edge {block target : BlockId} {state : CopyState Value} (follows : gen.Edge block target) :
      Step ⟨(block, []), state⟩ ⟨(target, (gen.block target).instructions), state⟩

/-- The places and states that a run gets to. -/
abbrev Reaches : CopyConfig Value → CopyConfig Value → Prop :=
  Relation.ReflTransGen (Step gen fixed)

variable {gen fixed} {before after : CopyConfig Value} {state : CopyState Value}
  {id source : NodeId} {value : Value}

/-- A step of a run follows the places of the function. -/
theorem Step.edge_places (step : Step gen fixed before after) :
    gen.places.edge before.place after.place := by
  cases step with
  | instruction => rfl
  | edge follows => exact ⟨follows, rfl⟩

variable {next : CopyState Value}

/-- An operand in another register keeps its value. -/
theorem operand_update
    (updates : next.registers = Function.update state.registers (register gen id) (some value))
    (apart : isFixed gen source = true ∨ register gen id ≠ register gen source) :
    operand gen fixed next source = operand gen fixed state source := by
  unfold operand
  split_ifs with stays
  · rfl
  · rw [updates]
    apply Function.update_of_ne
    exact (apart.resolve_left stays).symm

/-- An instruction with a register of its own has its value there. -/
theorem operand_evaluated {registers : NodeId → Option Value}
    (updates : next.registers = Function.update registers (register gen id) (some value))
    (evaluated : isStanding gen id = false) : operand gen fixed next id = some value := by
  unfold operand isFixed
  rw [evaluated, updates]
  exact Function.update_self ..

/-- The value that an instruction copies stays in the operand. -/
theorem operand_of_copy
    (updates : next.registers = Function.update state.registers (register gen id) (some value))
    (copied : operand gen fixed state source = some value) :
    operand gen fixed next source = some value := by
  by_cases stays : isFixed gen source = true ∨ register gen id ≠ register gen source
  · rw [operand_update updates stays]
    exact copied
  · rw [not_or, not_not, Bool.not_eq_true] at stays
    unfold operand
    rw [stays.1, if_neg Bool.false_ne_true, ← stays.2, updates]
    exact Function.update_self ..

end Copies

end DaveCC.Optimization
