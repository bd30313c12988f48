import DaveCC.Backend.ControlFlowGraph
import DaveCC.Backend.IntegerSemantics
import DaveCC.Optimization.Sccp

/-!
# Runs of a function in SSA form

A run carries the word each node last evaluated to. The word of a variable, or of one of
its versions, is what the variable holds. Integer operations have their fixed-width
meaning. What this semantics does not follow may be any word: memory that is not a
version of a safe variable, calls, floating-point operations.
-/

namespace DaveCC.Optimization.Sccp

open DaveCC.Arith DaveCC.Backend

/-- A variable of the program, as against one of its versions. -/
def isPlainVariable (opcode : IROpcode) : Bool :=
  opcode.isVariable && opcode != .ssavar && opcode != .phi

def isVersion (opcode : IROpcode) : Bool :=
  opcode == .ssavar || opcode == .phi

/-- What the code generator, `BuildBasicBlocks` and `GeneratorConvertToSSA` leave in the
nodes of a function. -/
structure SSAForm (gen : Generator) : Prop where
  /-- `CreateBasicBlocks` puts every instruction in its block. -/
  owner : ∀ block, ∀ id ∈ (gen.block block).instructions, (gen.nodes id).block = block
  /-- `GeneratorEmitVariable` emits the node of a variable. -/
  listed : ∀ id ∈ SCCPContext.instructionIds gen, ∀ input ∈ (gen.nodes id).inputs,
    isPlainVariable (gen.nodes input).opcode = true → input ∈ SCCPContext.instructionIds gen
  /-- `RenameVariables` gives a definition a version of its own symbol. -/
  definition : ∀ id version rest, (gen.nodes id).isVarDef = true →
    (gen.nodes id).inputs = version :: rest → (gen.nodes version).opcode = .ssavar →
    variableSymbol (gen.nodes version) = (gen.nodes id).var
  /-- A phi merges versions of one variable, and every version has its symbol's type. -/
  phiInput : ∀ id, (gen.nodes id).opcode = .phi → ∀ input ∈ (gen.nodes id).inputs,
    (gen.nodes input).opcode.isVariable = true ∧ (gen.nodes input).type = (gen.nodes id).type

structure SSAFunction extends ControlFlowGraph where
  form : SSAForm gen

/-- The words of the nodes evaluated so far. -/
abbrev Env := NodeId → Option (BitVec 64)

/-- The values a run starts with: those of the integer constants, and what the variables
hold. -/
def initialEnv (gen : Generator) (contents : NodeId → BitVec 64) : Env := fun id =>
  if id ∈ SCCPContext.instructionIds gen then
    if (gen.nodes id).opcode.isIntConst then some (gen.nodes id).ivalue
    else if isPlainVariable (gen.nodes id).opcode then some (contents id)
    else none
  else none

/-- The bits an integer store writes. -/
def storeBits : IROpcode → Nat
  | .store8 => 8
  | .store16 => 16
  | .store32 => 32
  | _ => 64

/-- The format an integer load reads its variable in. -/
def loadFormat : IROpcode → IntFormat
  | .load8 => ⟨8, false, by decide, by decide⟩
  | .load16 => ⟨16, false, by decide, by decide⟩
  | .load32 => ⟨32, false, Nat.succ_pos 31, Nat.le_add_left 32 32⟩
  | .loadu8 => ⟨8, true, by decide, by decide⟩
  | .loadu16 => ⟨16, true, by decide, by decide⟩
  | .loadu32 => ⟨32, true, Nat.succ_pos 31, Nat.le_add_left 32 32⟩
  | _ => addressFormat

section Step

variable [Compiler] (gen : Generator)

/-- The format of a node's value. -/
def nodeFormat (id : NodeId) : IntFormat :=
  wordFormat (gen.nodes id).type

/-- The value an instruction finds in an operand. -/
def operand (env : Env) (id : NodeId) : Option (BitVec 64) :=
  (env id).map (nodeFormat gen id).canonicalize

/-- The right operand of an integer operation. One that has none ignores it. -/
def rightOperand (env : Env) (inst : IRNode) : Option (BitVec 64) :=
  if isUnaryInteger inst.opcode then some 0 else inst.inputs[1]?.bind (operand gen env)

/-- The version a marked store defines. -/
def definedVersion (inst : IRNode) : Option NodeId :=
  if inst.isVarDef && inst.opcode.isStore then
    inst.inputs.head?.filter fun version => (gen.nodes version).opcode == .ssavar
  else none

/-- The words a definition may leave in its version. An integer store writes the low
bits of its value; any other store may write anything. -/
def MayStore (env : Env) (inst : IRNode) (contents : BitVec 64) : Prop :=
  isIntegerStore inst.opcode = true → ∀ value ∈ inst.inputs[1]?,
    ∃ word, operand gen env value = some word ∧
      contents.setWidth (storeBits inst.opcode) = word.setWidth (storeBits inst.opcode)

/-- The effect of an instruction on the versions. -/
inductive Defines (env : Env) (inst : IRNode) : Env → Prop where
  | nothing (none : definedVersion gen inst = none) : Defines env inst env
  | version {version : NodeId} {contents : BitVec 64}
      (defines : definedVersion gen inst = some version)
      (stores : MayStore gen env inst contents) :
      Defines env inst (Function.update env version (some contents))

/-- The instructions that compute a value of their own. -/
def hasResult (inst : IRNode) : Bool :=
  if inst.opcode.isStore then !inst.outputs.isEmpty
  else !(inst.opcode.isIntConst || inst.opcode.isVariable || inst.opcode.isBranch ||
    inst.opcode == .ret || inst.opcode == .label || inst.opcode == .enter ||
    inst.opcode == .leave)

/-- The load reads a version of a safe variable. -/
def readsVersion (source : NodeId) : Bool :=
  isVersion (gen.nodes source).opcode && isSafeSSASymbol (variableSymbol (gen.nodes source))

/-- An integer operation on values. A variable operand stands for its address. -/
def isIntegerOperation (inst : IRNode) : Bool :=
  isSupportedIntegerExpression inst.opcode &&
    !inst.inputs.any fun input => (gen.nodes input).opcode.isVariable

/-- The words an instruction may evaluate to. An operation on operands for which it has
no value, such as a division by zero, may give anything. -/
structure MayProduce (env : Env) (inst : IRNode) (word : BitVec 64) : Prop where
  load : isIntegerLoad inst.opcode = true →
    ∀ source ∈ inst.inputs.head?, readsVersion gen source = true →
      ∃ contents, env source = some contents ∧ word = (loadFormat inst.opcode).canonicalize contents
  operation : isIntegerOperation gen inst = true →
    ∀ left ∈ inst.inputs.head?, ∃ a b,
      operand gen env left = some a ∧ rightOperand gen env inst = some b ∧
        ∀ value, inst.opcode.integerValue (wordFormat inst.type) (nodeFormat gen left) a b =
          some value → word = value

/-- The effect of an instruction on its own value. -/
inductive Results (env : Env) (id : NodeId) : Env → Prop where
  | nothing (none : hasResult (gen.nodes id) = false) : Results env id env
  | value {word : BitVec 64} (some : hasResult (gen.nodes id) = true)
      (produces : MayProduce gen env (gen.nodes id) word) :
      Results env id (Function.update env id (.some word))

/-- A run goes from the block to its successor `target`. A conditional branch goes to
its label's block when it is taken and over its other edge when it is not. -/
def Leaves (env : Env) (block target : BlockId) : Prop :=
  target ∈ (gen.block block).outEdges ∧
    ∀ terminator ∈ (gen.block block).endCode,
      ∀ condition label rest, (gen.nodes terminator).opcode.isConditionalBranch = true →
        (gen.nodes terminator).inputs = condition :: label :: rest →
        ∃ word, operand gen env condition = some word ∧
          if SCCPContext.takesBranch (gen.nodes terminator).opcode word then
            target = (gen.nodes label).block
          else target ∈ (gen.block block).outEdges.erase (gen.nodes label).block

/-- A run enters `target` over its in edge from `source`. The phis take their operands
of that edge all at once; a phi without an operand for every edge may hold anything. -/
def Enters (source target : BlockId) (env entered : Env) : Prop :=
  ∃ index : Nat, (gen.block target).inEdges[index]? = some source ∧
    ∀ id, if id ∈ (gen.block target).instructions ∧ (gen.nodes id).opcode = .phi then
        (gen.nodes id).inputs.length = (gen.block target).inEdges.length →
          entered id = (gen.nodes id).inputs[index]?.bind env
      else entered id = env id

/-- A state of a run. -/
structure Config where
  block : BlockId
  rest : List NodeId
  env : Env
  arrivedFrom : Option BlockId

/-- The state at the start of the entry block. -/
def Config.start (contents : NodeId → BitVec 64) : Config where
  block := gen.entryBlock
  rest := (gen.block gen.entryBlock).instructions
  env := initialEnv gen contents
  arrivedFrom := none

/-- One step of a run: an instruction, or an edge when the block is done. -/
inductive Step : Config → Config → Prop where
  | instruction {block : BlockId} {id : NodeId} {rest : List NodeId}
      {env middle next : Env} {arrivedFrom : Option BlockId}
      (defines : Defines gen env (gen.nodes id) middle) (results : Results gen middle id next) :
      Step ⟨block, id :: rest, env, arrivedFrom⟩ ⟨block, rest, next, arrivedFrom⟩
  | edge {block target : BlockId} {env entered : Env} {arrivedFrom : Option BlockId}
      (leaves : Leaves gen env block target) (enters : Enters gen block target env entered) :
      Step ⟨block, [], env, arrivedFrom⟩
        ⟨target, (gen.block target).instructions, entered, some block⟩

end Step

end DaveCC.Optimization.Sccp
