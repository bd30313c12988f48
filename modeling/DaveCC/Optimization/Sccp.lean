import DaveCC.Backend.IR
import DaveCC.Loop.While

/-!
# Sparse conditional constant propagation

The analysis half of `sccp.c`: the three-level lattice, the integer evaluator
and the fixed-point iteration over executable blocks and edges.
-/

namespace DaveCC.Optimization.Sccp

open DaveCC.Backend DaveCC.Loop

variable [Compiler]

/-- `SCCPValue`: the lattice state of a node, with its constant. -/
inductive SCCPValue where
  | undefined
  | constant (value : BitVec 64)
  | overdefined
  deriving DecidableEq, Repr

/-- `SCCPContext`. The bit set of executable edges is indexed by the pair of
block ids, which `EdgeIndex` packs into one number. -/
structure SCCPContext where
  gen : Generator
  values : NodeId → SCCPValue
  valueCount : Nat
  executableBlocks : Finset BlockId := ∅
  executableEdges : Finset (BlockId × BlockId) := ∅
  changed : Bool := false

/-- Keep the low `bits` bits, copying the top one upwards for a signed value. -/
def maskInteger (bits : Nat) (isUnsigned : Bool) (value : BitVec 64) : BitVec 64 :=
  let mask : BitVec 64 := (1#64 <<< bits) - 1
  let masked := value &&& mask
  if !isUnsigned && masked &&& (1#64 <<< (bits - 1)) != 0 then masked ||| ~~~mask
  else masked

/-- `TypedConstantValue`: a result brought into the range of the node's type. -/
def typedConstantValue (node : IRNode) (value : BitVec 64) : SCCPValue :=
  match node.type with
  | some type =>
    if !type.isIntegral || type.size == 0 || 8 ≤ type.size then .constant value
    else .constant (maskInteger (type.size * 8) type.isUnsigned value)
  | none => .constant value

def normalizeIntegerValue (value : BitVec 64) (type : Option TypeRecord) : BitVec 64 :=
  match type with
  | some type =>
    let bits := if type.isBitInt then type.bitWidth else type.size * 8
    if !type.isIntegral || bits == 0 || 64 ≤ bits then value
    else maskInteger bits type.isUnsigned value
  | none => value

def SCCPContext.valueOf (context : SCCPContext) (node : NodeId) : SCCPValue :=
  if node < context.valueCount then context.values node else .overdefined

/-- The leading-zero loop of `clzi`, entered with `bit` at the top position. -/
def countLeadingZeros (value : BitVec 64) : Nat → Nat
  | 0 => 0
  | bit + 1 =>
    if value &&& (1#64 <<< bit) == 0 then countLeadingZeros value bit + 1 else 0

/-- The trailing-zero loop of `ctzi` from position `count`, `left` bits to go. -/
def countTrailingZeros (value : BitVec 64) (count : Nat) : Nat → Nat
  | 0 => count
  | left + 1 =>
    if value &&& (1#64 <<< count) == 0 then countTrailingZeros value (count + 1) left
    else count

/-- The loop of `popcounti`, which clears the lowest set bit each time. -/
def countOnes (value : BitVec 64) : Nat → Nat
  | 0 => 0
  | fuel + 1 => if value == 0 then 0 else countOnes (value &&& (value - 1#64)) fuel + 1

/-- The opcodes `EvaluateIntegerExpression` reads only one operand of. -/
def isUnaryInteger : IROpcode → Bool
  | .negi | .onescomp | .noti | .movi | .mova | .clzi | .ctzi | .popcounti => true
  | _ => false

/-- `is_unsigned` of `EvaluateIntegerExpression`. -/
def operationIsUnsigned (gen : Generator) (inst lhsNode : IRNode) : Bool :=
  if inst.opcode.isComparison then gen.comparisonIsUnsigned inst
  else lhsNode.type.any TypeRecord.isUnsigned

/-- `width` of `EvaluateIntegerExpression`: bits in the result, or in a `_BitInt`
left operand. -/
def operationWidth (inst lhsNode : IRNode) : Nat :=
  match lhsNode.type.filter TypeRecord.isBitInt with
  | some type => type.bitWidth
  | none => match inst.type with
    | some type => if 0 < type.size then type.size * 8 else 64
    | none => 64

/-- The mask of the low `width` bits. -/
def widthMask (width : Nat) : BitVec 64 :=
  if 64 ≤ width then BitVec.allOnes 64 else (1#64 <<< width) - 1

/-- The shift counts `lsli`, `lsri` and `asri` are not folded for. -/
def shiftCountOutOfRange (width : Nat) (count : BitVec 64) : Bool :=
  count.toInt < 0 || (width : Int) ≤ count.toInt || 64 ≤ count.toInt

/-- The divisions `divi` and `modi` are not folded for. -/
def divisionUndefined (isUnsigned : Bool) (lhs rhs : BitVec 64) : Bool :=
  rhs == 0 || (!isUnsigned && lhs == BitVec.intMin 64 && rhs == BitVec.allOnes 64)

/-- The bits an extension between two sizes copies: those of the smaller one.
There are none when the sizes agree or a type is missing. -/
def extensionBits (inst lhsNode : IRNode) : Option Nat :=
  match lhsNode.type, inst.type with
  | some source, some result =>
    if source.size = result.size then none
    else some ((if result.size < source.size then result.size else source.size) * 8)
  | _, _ => none

/-- `rotli` and `rotri` at the operation's width. -/
def rotateInteger (left : Bool) (width : Nat) (lhs rhs : BitVec 64) : BitVec 64 :=
  let remainder := rhs.toInt.tmod width
  let amount := (if remainder < 0 then remainder + width else remainder).toNat
  let value := lhs &&& widthMask width
  if amount == 0 then value
  else
    let rotated := if left
      then (value <<< amount) ||| (value >>> (width - amount))
      else (value >>> amount) ||| (value <<< (width - amount))
    rotated &&& widthMask width

/-- The constant of a C truth value. -/
def truthValue (condition : Bool) : SCCPValue :=
  .constant (if condition then 1 else 0)

/-- The switch of `EvaluateIntegerExpression`, on normalised operands. -/
def evaluateOperation (gen : Generator) (inst lhsNode : IRNode)
    (lhs rhs : BitVec 64) : SCCPValue :=
  let isUnsigned := operationIsUnsigned gen inst lhsNode
  let width := operationWidth inst lhsNode
  match inst.opcode with
  | .movi => typedConstantValue inst lhs
  | .mova => .constant lhs
  | .addi => typedConstantValue inst (lhs + rhs)
  | .adda => .constant (lhs + rhs)
  | .subi => typedConstantValue inst (lhs - rhs)
  | .suba => .constant (lhs - rhs)
  | .muli => typedConstantValue inst (lhs * rhs)
  | .divi =>
    if divisionUndefined isUnsigned lhs rhs then .overdefined
    else typedConstantValue inst (if isUnsigned then lhs / rhs else lhs.sdiv rhs)
  | .modi =>
    if divisionUndefined isUnsigned lhs rhs then .overdefined
    else typedConstantValue inst (if isUnsigned then lhs % rhs else lhs.srem rhs)
  | .andi => typedConstantValue inst (lhs &&& rhs)
  | .ori => typedConstantValue inst (lhs ||| rhs)
  | .xori => typedConstantValue inst (lhs ^^^ rhs)
  | .lsli =>
    if shiftCountOutOfRange width rhs then .overdefined
    else typedConstantValue inst (lhs <<< rhs.toNat)
  | .lsri =>
    if shiftCountOutOfRange width rhs then .overdefined
    else typedConstantValue inst (lhs >>> rhs.toNat)
  | .asri =>
    if shiftCountOutOfRange width rhs then .overdefined
    else typedConstantValue inst (lhs.sshiftRight rhs.toNat)
  | .rotli => typedConstantValue inst (rotateInteger true width lhs rhs)
  | .rotri => typedConstantValue inst (rotateInteger false width lhs rhs)
  | .clzi =>
    typedConstantValue inst (.ofNat 64 (countLeadingZeros (lhs &&& widthMask width) width))
  | .ctzi =>
    typedConstantValue inst (.ofNat 64 (countTrailingZeros (lhs &&& widthMask width) 0 width))
  | .popcounti =>
    typedConstantValue inst (.ofNat 64 (countOnes (lhs &&& widthMask width) 64))
  | .zeroextendi =>
    match extensionBits inst lhsNode with
    | some bits => typedConstantValue inst (lhs &&& widthMask bits)
    -- Same-width nodes are explicit bit masks.
    | none => typedConstantValue inst (lhs &&& rhs)
  | .signextendi =>
    match extensionBits inst lhsNode with
    | some bits =>
      if 64 ≤ bits then .constant lhs
      else typedConstantValue inst (maskInteger bits false lhs)
    | none =>
      if rhs.toInt < 0 || 64 ≤ rhs.toInt then .overdefined
      else typedConstantValue inst ((lhs <<< rhs.toNat).sshiftRight rhs.toNat)
  | .cmpeqi | .cmpeqa => truthValue (lhs == rhs)
  | .cmpnei | .cmpnea => truthValue (lhs != rhs)
  | .cmplti | .cmplta => truthValue (if isUnsigned then lhs.ult rhs else lhs.slt rhs)
  | .cmplei | .cmplea => truthValue (if isUnsigned then lhs.ule rhs else lhs.sle rhs)
  | .cmpgti | .cmpgta => truthValue (if isUnsigned then rhs.ult lhs else rhs.slt lhs)
  | .cmpgei | .cmpgea => truthValue (if isUnsigned then rhs.ule lhs else rhs.sle lhs)
  | .negi => typedConstantValue inst (0 - lhs)
  | .onescomp => typedConstantValue inst (~~~lhs)
  | .noti => truthValue (lhs == 0)
  | _ => .overdefined

def isSupportedIntegerExpression : IROpcode → Bool
  | .movi | .mova | .addi | .adda | .subi | .suba | .muli | .divi | .modi | .andi
  | .ori | .xori | .lsli | .lsri | .asri | .rotli | .rotri | .clzi | .ctzi
  | .popcounti | .zeroextendi | .signextendi | .cmpeqi | .cmpeqa | .cmpnei | .cmpnea
  | .cmplti | .cmplta | .cmplei | .cmplea | .cmpgti | .cmpgta | .cmpgei | .cmpgea
  | .negi | .onescomp | .noti => true
  | _ => false

def SCCPContext.evaluateIntegerExpression (context : SCCPContext) (inst : IRNode) :
    SCCPValue :=
  match inst.inputs with
  | [] => .overdefined
  | left :: rest =>
    let lhsNode := context.gen.nodes left
    let right := if isUnaryInteger inst.opcode then none else rest.head?
    -- A unary operation ignores its right operand, which is read as zero.
    let rhs := if isUnaryInteger inst.opcode then .constant 0
      else right.elim .undefined context.valueOf
    -- `HasVariableOperand`: a variable operand is its storage, not its contents.
    if inst.inputs.any fun input => (context.gen.nodes input).opcode.isVariable then
      .overdefined
    else match context.valueOf left, rhs with
    | .overdefined, _ | _, .overdefined => .overdefined
    | .constant lhs, .constant rhs =>
      evaluateOperation context.gen inst lhsNode (normalizeIntegerValue lhs lhsNode.type)
        (normalizeIntegerValue rhs (right.bind fun id => (context.gen.nodes id).type))
    | _, _ => .undefined

/-! ## Variables -/

def variableSymbol (node : IRNode) : Option Symbol :=
  match node.opcode with
  | .localvar | .argument | .tempvar | .staticvar | .externvar | .ssavar | .phi => node.symbol
  | _ => none

/-- `IsSafeSSASymbol`: every access to the variable goes through one of its versions. -/
def isSafeSSASymbol : Option Symbol → Bool
  | none => false
  | some symbol =>
    !symbol.type.isArray && !symbol.addressTaken &&
      (symbol.isArgument || symbol.isTemp || (symbol.isLocal && !symbol.storageIs kStorageStatic))

def isIntegerStore : IROpcode → Bool
  | .store8 | .store16 | .store32 | .store64 | .storea => true
  | _ => false

def isIntegerLoad : IROpcode → Bool
  | .load8 | .load16 | .load32 | .load64 | .loadu8 | .loadu16 | .loadu32 | .loada => true
  | _ => false

/-- The bits and the signedness of the loads that `TruncateLoad` narrows for. -/
def narrowLoad : IROpcode → Option (Nat × Bool)
  | .load8 => some (8, false)
  | .load16 => some (16, false)
  | .load32 => some (32, false)
  | .loadu8 => some (8, true)
  | .loadu16 => some (16, true)
  | .loadu32 => some (32, true)
  | _ => none

def truncateLoad (opcode : IROpcode) (value : SCCPValue) : SCCPValue :=
  match value, narrowLoad opcode with
  | .constant word, some (bits, isUnsigned) => .constant (maskInteger bits isUnsigned word)
  | value, _ => value

namespace SCCPContext

/-- `UpdateValue`: a node only ever moves up the lattice. -/
def updateValue (context : SCCPContext) (node : NodeId) (incoming : SCCPValue) : SCCPContext :=
  if node < context.valueCount then
    match context.values node, incoming with
    | _, .undefined => context
    | .overdefined, _ => context
    | .undefined, incoming =>
      { context with values := Function.update context.values node incoming, changed := true }
    | .constant _, .overdefined =>
      { context with
        values := Function.update context.values node .overdefined, changed := true }
    | .constant current, .constant value =>
      if current = value then context
      else
        { context with
          values := Function.update context.values node .overdefined, changed := true }
  else context

def edgeIsExecutable (context : SCCPContext) (source target : BlockId) : Bool :=
  decide ((source, target) ∈ context.executableEdges)

def markEdgeExecutable (context : SCCPContext) (source target : BlockId) : SCCPContext :=
  if context.edgeIsExecutable source target then context
  else
    { context with
      executableEdges := insert (source, target) context.executableEdges
      executableBlocks := insert target context.executableBlocks
      changed := true }

end SCCPContext

def mergeValue : SCCPValue → SCCPValue → SCCPValue
  | .undefined, right => right
  | left, .undefined => left
  | .constant left, .constant right =>
    if left = right then .constant left else .overdefined
  | _, _ => .overdefined

namespace SCCPContext

/-- `EvaluatePhi`: the merge of the inputs on executable edges, where the phi has one
input for each in edge. -/
def evaluatePhi (context : SCCPContext) (phi : IRNode) : SCCPValue :=
  let block := context.gen.block phi.block
  if phi.inputs.length == 0 || phi.inputs.length != block.inEdges.length then .overdefined
  else
    (block.inEdges.zip phi.inputs).foldl
      (fun result edge =>
        if context.edgeIsExecutable edge.1 phi.block then
          mergeValue result (context.valueOf edge.2)
        else result)
      .undefined

def evaluateDefinition (context : SCCPContext) (inst : IRNode) : SCCPContext :=
  if inst.isVarDef then
    match inst.inputs with
    | [] => context
    | defined :: rest =>
      let node := context.gen.nodes defined
      if variableSymbol node != inst.var || node.opcode != .ssavar then context
      else
        match rest with
        | value :: _ =>
          if isSafeSSASymbol inst.var && isIntegerStore inst.opcode &&
              inst.valueState == .valid then
            context.updateValue defined (context.valueOf value)
          else context.updateValue defined .overdefined
        | [] => context.updateValue defined .overdefined
  else context

/-- The rest of `EvaluateInstruction` after the definition: the value of the
instruction itself. -/
def evaluateResult (context : SCCPContext) (id : NodeId) : SCCPContext :=
  let inst := context.gen.nodes id
  if inst.opcode == .calla then context.updateValue id .overdefined
  else if inst.opcode.isStore then
    if inst.outputs.isEmpty then context else context.updateValue id .overdefined
  else if inst.valueState != .valid then context.updateValue id .overdefined
  else if inst.opcode == .ssavar || inst.opcode.isBranch || inst.opcode == .ret ||
      inst.opcode == .label || inst.opcode == .enter || inst.opcode == .leave then context
  else if inst.dest.isSome || context.gen.hasSideEffects inst then
    context.updateValue id .overdefined
  else if isIntegerLoad inst.opcode then
    match inst.inputs with
    | [] => context.updateValue id .overdefined
    | source :: _ =>
      if isSafeSSASymbol (variableSymbol (context.gen.nodes source)) then
        context.updateValue id (truncateLoad inst.opcode (context.valueOf source))
      else context.updateValue id .overdefined
  else if isSupportedIntegerExpression inst.opcode then
    context.updateValue id (context.evaluateIntegerExpression inst)
  else if inst.opcode.isVariable then context.updateValue id .overdefined
  else if inst.opcode.isExpression then context.updateValue id .overdefined
  else context

def evaluateInstruction (context : SCCPContext) (id : NodeId) : SCCPContext :=
  let inst := context.gen.nodes id
  if inst.opcode.isIntConst then
    context.updateValue id
      (if inst.valueState == .valid then .constant inst.ivalue else .overdefined)
  else if inst.opcode == .phi then
    context.updateValue id
      (if inst.valueState == .valid then context.evaluatePhi inst else .overdefined)
  else (context.evaluateDefinition inst).evaluateResult id

def markEdges (context : SCCPContext) (source : BlockId) (targets : List BlockId) :
    SCCPContext :=
  targets.foldl (fun context target => context.markEdgeExecutable source target) context

/-- Whether a conditional branch on the constant goes to its label. -/
def takesBranch (opcode : IROpcode) (condition : BitVec 64) : Bool :=
  if opcode == .btrue then condition != 0 else condition == 0

def markSuccessors (context : SCCPContext) (id : BlockId) : SCCPContext :=
  let block := context.gen.block id
  match block.endCode with
  | none => context
  | some terminator =>
    let branch := context.gen.nodes terminator
    match branch.opcode.isConditionalBranch, branch.inputs with
    | true, condition :: label :: _ =>
      if block.outEdges.length == 1 then context.markEdges id block.outEdges
      else
        match context.valueOf condition with
        | .undefined => context
        | .overdefined => context.markEdges id block.outEdges
        | .constant value =>
          let taken := (context.gen.nodes label).block
          let take := takesBranch branch.opcode value
          context.markEdges id (block.outEdges.filter fun successor => (successor == taken) == take)
    | _, _ => context.markEdges id block.outEdges

/-- The instructions of the function in layout order. -/
def instructionIds (gen : Generator) : List NodeId :=
  gen.basicBlocks.flatMap BasicBlock.instructions

def initializeValues (context : SCCPContext) : SCCPContext :=
  { context with
    values := (instructionIds context.gen).foldl
      (fun values id =>
        let inst := context.gen.nodes id
        if context.valueCount ≤ id then values
        else if inst.opcode.isIntConst then Function.update values id (.constant inst.ivalue)
        else if inst.opcode.isVariable && inst.opcode != .ssavar && inst.opcode != .phi then
          Function.update values id .overdefined
        else values)
      context.values }

/-- One block of a pass of `Analyze`. -/
def analyzeBlock (context : SCCPContext) (id : BlockId) : SCCPContext :=
  if id ∈ context.executableBlocks then
    ((context.gen.block id).instructions.foldl evaluateInstruction context).markSuccessors id
  else context

/-- One pass of `Analyze` over all blocks. -/
def analyzePass (context : SCCPContext) : SCCPContext :=
  (List.range context.gen.basicBlocks.length).foldl analyzeBlock { context with changed := false }

/-- `Analyze`: passes until one changes nothing. -/
def analyze (fuel : Nat) (context : SCCPContext) : Option SCCPContext :=
  runWhile SCCPContext.changed (fun context => some context.analyzePass) fuel
    { context with
      executableBlocks := insert context.gen.entryBlock context.executableBlocks
      changed := true }

/-- The context `SparseConditionalConstantPropagation` sets up. -/
def start (gen : Generator) : SCCPContext :=
  initializeValues
    { gen
      values := fun _ => .undefined
      valueCount := (instructionIds gen).foldl (fun count id => max count (id + 1)) 1 }

end SCCPContext

end DaveCC.Optimization.Sccp
