import Mathlib.Data.Finset.Basic

/-!
# IR opcodes

The opcodes of the target-independent intermediate representation, in the order
of `IROpcode` in `ir.h`, with the classification predicates of `ir.c`. The order
matters: constants and comparisons are recognised as ranges, and value numbering
encodes an opcode by its position.
-/

namespace DaveCC.Backend

/-- An IR operation. -/
inductive IROpcode where
  | nop | tmp | const8 | const16 | const32 | const64 | constf | constd | consta
  | movi | movf | movd | mova | label | namedLabel | load32 | load8 | load64
  | load16 | loadu32 | loadu8 | loadu16 | loadf | loadd | loada | structarg
  | vectorarg | store32 | store8 | store16 | store64 | storef | stored | storea
  | getbit | setbit | addi | addf | addd | adda | subi | subf | subd | suba | muli
  | mulf | muld | divi | divf | divd | modi | lsri | asri | lsli | rotli | rotri
  | clzi | ctzi | popcounti | ori | andi | xori | noti | nota | onescomp | negi
  | negf | negd | vadd | vsub | vmul | vdiv | vmod | vlsl | vlsr | vasr | vand | vor
  | vxor | vneg | vonescomp | vcmpeq | vcmpne | vcmplt | vcmple | vcmpgt | vcmpge
  | vcmpltu | vcmpleu | vcmpgtu | vcmpgeu | cmpeqi | cmpnei | cmplti | cmplei
  | cmpgti | cmpgei | cmpeqf | cmpnef | cmpltf | cmplef | cmpgtf | cmpgef | cmpeqd
  | cmpned | cmpltd | cmpled | cmpgtd | cmpged | cmpeqa | cmpnea | cmplta | cmplea
  | cmpgta | cmpgea | cmp3wayi | cmp3wayu | cmp3wayf | cmp3wayd | cmp3waya | btrue
  | bfalse | bra | cbra | calla | ret | enter | leave | localvar | externvar
  | argument | staticvar | tempvar | ssavar | structreturn | addressof | literalref
  | loc | observableCheckpoint | prefetch | pusharg | resulti | resultf | resultd
  | resulta | resultv | capturev | i2f | i2d | f2d | d2f | f2i | d2i | zeroextendi
  | signextendi | aligni | memzero | memcpy | cast | phi | asm | nrvoval | decsp
  | savesp | restoresp | builtinVaStart | builtinVaArg | builtinVaEnd
  | builtinVaCopy | atomicLoad | atomicStore | atomicFetchAdd | atomicFetchSub
  | atomicAddFetch | atomicSubFetch | atomicCompareExchangeBool
  | atomicCompareExchangeVal | atomicCompareExchangeN | atomicFence | inc8 | inc16
  | inc32 | inc64 | uinc8 | uinc16 | uinc32 | uinc64 | inca | incf | incd | dec8
  | dec16 | dec32 | dec64 | udec8 | udec16 | udec32 | udec64 | deca | decf | decd
  deriving DecidableEq, Repr

namespace IROpcode

/-- `IRIsConst`: the contiguous range of constant opcodes. -/
def isConst (opcode : IROpcode) : Bool :=
  const8.ctorIdx ≤ opcode.ctorIdx && opcode.ctorIdx ≤ consta.ctorIdx

/-- `IRIsIntConst`: the constants whose payload is an integer. -/
def isIntConst (opcode : IROpcode) : Bool :=
  opcode.isConst && opcode != .constf && opcode != .constd

/-- `IRIsComparison`: the contiguous range of comparison opcodes. -/
def isComparison (opcode : IROpcode) : Bool :=
  cmpeqi.ctorIdx ≤ opcode.ctorIdx && opcode.ctorIdx ≤ cmpgea.ctorIdx

/-- `IRIsConditionalBranch`. -/
def isConditionalBranch (opcode : IROpcode) : Bool :=
  opcode == .btrue || opcode == .bfalse

/-- `IRIsBranch`. -/
def isBranch (opcode : IROpcode) : Bool :=
  opcode == .btrue || opcode == .bfalse || opcode == .bra || opcode == .cbra

/-- `IRIsVariable`: nodes standing for a variable's storage. -/
def isVariable : IROpcode → Bool
  | .localvar | .externvar | .argument | .staticvar | .tempvar | .ssavar | .phi
  | .structreturn | .tmp => true
  | _ => false

/-- `IRIsExpression`: the opcodes local value numbering looks up. -/
def isExpression : IROpcode → Bool
  | .const32 | .const8 | .const16 | .const64 | .constf | .constd | .consta | .movi
  | .movf | .movd | .mova | .tmp | .load32 | .load8 | .load64 | .load16 | .loadu32
  | .loadu8 | .loadu16 | .loadf | .loadd | .loada | .structarg | .vectorarg
  | .store32 | .store8 | .store16 | .store64 | .storef | .stored | .storea | .addi
  | .addf | .addd | .adda | .subi | .subf | .subd | .suba | .muli | .mulf | .muld
  | .divi | .divf | .divd | .modi | .lsri | .asri | .lsli | .rotli | .rotri | .clzi
  | .ctzi | .popcounti | .ori | .andi | .xori | .noti | .nota | .onescomp | .negi
  | .negf | .negd | .vadd | .vsub | .vmul | .vdiv | .vmod | .vlsl | .vlsr | .vasr
  | .vand | .vor | .vxor | .vneg | .vonescomp | .vcmpeq | .vcmpne | .vcmplt
  | .vcmple | .vcmpgt | .vcmpge | .vcmpltu | .vcmpleu | .vcmpgtu | .vcmpgeu
  | .localvar | .externvar | .argument | .staticvar | .tempvar | .ssavar | .i2f
  | .i2d | .f2d | .d2f | .f2i | .d2i | .zeroextendi | .signextendi | .phi | .calla
  | .builtinVaArg | .atomicLoad | .atomicFetchAdd | .atomicFetchSub
  | .atomicAddFetch | .atomicSubFetch | .atomicCompareExchangeBool
  | .atomicCompareExchangeVal | .atomicCompareExchangeN | .cmpeqi | .cmpnei
  | .cmplti | .cmplei | .cmpgti | .cmpgei | .cmpeqf | .cmpnef | .cmpltf | .cmplef
  | .cmpgtf | .cmpgef | .cmpeqd | .cmpned | .cmpltd | .cmpled | .cmpgtd | .cmpged
  | .cmpeqa | .cmpnea | .cmplta | .cmplea | .cmpgta | .cmpgea | .cmp3wayi
  | .cmp3wayu | .cmp3wayf | .cmp3wayd | .cmp3waya | .literalref | .addressof | .cast
  | .inc8 | .inc16 | .inc32 | .inc64 | .uinc8 | .uinc16 | .uinc32 | .uinc64 | .inca
  | .incf | .incd | .dec8 | .dec16 | .dec32 | .dec64 | .udec8 | .udec16 | .udec32
  | .udec64 | .deca | .decf | .decd => true
  | _ => false

/-- `IRIsCommutative`. -/
def isCommutative : IROpcode → Bool
  | .addi | .addf | .addd | .adda | .muli | .mulf | .muld | .ori | .andi | .xori
  | .vadd | .vmul | .vand | .vor | .vxor | .vcmpeq | .vcmpne | .phi => true
  | _ => false

/-- `IRIsStoreOnly`: the plain stores, with the address in the first input. -/
def isStoreOnly : IROpcode → Bool
  | .store32 | .store8 | .store16 | .store64 | .storef | .stored | .storea => true
  | _ => false

/-- `IRIsIncDec`. The source lists neither the unsigned steps nor `dec8`. -/
def isIncDec : IROpcode → Bool
  | .inc8 | .inc16 | .inc32 | .inc64 | .inca | .incf | .incd | .dec16 | .dec32
  | .dec64 | .deca | .decf | .decd => true
  | _ => false

/-- `IRIsStore`: everything that may write, with two pure conversions. -/
def isStore (opcode : IROpcode) : Bool :=
  match opcode with
  | .store32 | .store8 | .store16 | .store64 | .storef | .stored | .storea
  | .addressof | .cast | .builtinVaStart | .builtinVaEnd | .builtinVaArg
  | .builtinVaCopy | .atomicLoad | .atomicStore | .atomicFetchAdd | .atomicFetchSub
  | .atomicAddFetch | .atomicSubFetch | .atomicCompareExchangeBool
  | .atomicCompareExchangeVal | .atomicCompareExchangeN | .atomicFence | .memzero
  | .memcpy | .inc8 | .inc16 | .inc32 | .inc64 | .uinc8 | .uinc16 | .uinc32
  | .uinc64 | .inca | .incf | .incd | .dec8 | .dec16 | .dec32 | .dec64 | .udec8
  | .udec16 | .udec32 | .udec64 | .deca | .decf | .decd | .setbit | .capturev
  | .vadd | .vsub | .vmul | .vdiv | .vmod | .vlsl | .vlsr | .vasr | .vand | .vor
  | .vxor | .vneg | .vonescomp | .vcmpeq | .vcmpne | .vcmplt | .vcmple | .vcmpgt
  | .vcmpge | .vcmpltu | .vcmpleu | .vcmpgtu | .vcmpgeu => true
  | opcode => opcode.isIncDec

/-- `IRIsLoad`. -/
def isLoad (opcode : IROpcode) : Bool :=
  match opcode with
  | .load32 | .load8 | .load64 | .load16 | .loadu32 | .loadu8 | .loadu16 | .loadf
  | .loadd | .loada | .structarg | .vectorarg | .pusharg | .addressof | .cast
  | .getbit => true
  | opcode => opcode.isIncDec

/-- `IRIsLoadOnly`: the plain loads, with the address in the first input. -/
def isLoadOnly : IROpcode → Bool
  | .load32 | .load8 | .load64 | .load16 | .loadu32 | .loadu8 | .loadu16 | .loadf
  | .loadd | .loada => true
  | _ => false

/-- `IRIsResult`: the function-result markers. -/
def isResult : IROpcode → Bool
  | .resulti | .resultf | .resultd | .resulta | .resultv => true
  | _ => false

end IROpcode

end DaveCC.Backend

/-!
## Types seen by the back end

A `TypeRecord` of the front end is a chain of declarators. The back end reads a
record's declarator, basic-type bits, qualifiers and size, and walks the chain
of records behind it, so the chain is kept as the list of records reached
through `next`.
-/

namespace DaveCC.Backend

/-- The compiler options the back end consults when it reads a type. -/
class Compiler where
  plainCharIsSigned : Bool

/-- How a type record is derived from the record behind it. -/
inductive Declarator where
  | primitive | pointer | reference | rvalueReference | array | vector
  | function | memberPointer
  deriving DecidableEq, Repr

/-! ## Bits of the basic type and of the qualifiers -/

def kTypeChar : Nat := 1 <<< 0
def kTypeInt : Nat := 1 <<< 1
def kTypeShort : Nat := 1 <<< 2
def kTypeLong : Nat := 1 <<< 3
def kTypeLongLong : Nat := 1 <<< 4
def kTypeBool : Nat := 1 <<< 8
def kTypeEnum : Nat := 1 <<< 12
def kTypeSigned : Nat := 1 <<< 13
def kTypeUnsigned : Nat := 1 <<< 14
def kTypeChar8 : Nat := 1 <<< 19
def kTypeChar16 : Nat := 1 <<< 20
def kTypeChar32 : Nat := 1 <<< 21
def kTypeBitInt : Nat := 1 <<< 25
def kTypeInt128 : Nat := 1 <<< 27
def kTypeWchar : Nat := 1 <<< 28

def kQualVolatile : Nat := 8

/-- One record of a type's declarator chain. -/
structure TypeLevel where
  declarator : Declarator
  type : Nat
  qualifiers : Nat := 0
  size : Nat
  bitWidth : Nat := 0
  deriving DecidableEq, Repr

/-- A type: its own record and the records reached through `next`. -/
structure TypeRecord extends TypeLevel where
  next : List TypeLevel := []
  deriving DecidableEq, Repr

namespace TypeLevel

def isPrimitive (level : TypeLevel) : Bool :=
  level.declarator == .primitive

/-- The record's basic-type bits meet `bits`. -/
def hasType (level : TypeLevel) (bits : Nat) : Bool :=
  level.type &&& bits != 0

def isVolatile (level : TypeLevel) : Bool :=
  level.qualifiers &&& kQualVolatile != 0

end TypeLevel

namespace TypeRecord

/-- `TypeIsIntegral`. -/
def isIntegral (type : TypeRecord) : Bool :=
  type.isPrimitive &&
    type.hasType (kTypeInt ||| kTypeShort ||| kTypeChar ||| kTypeChar8 |||
      kTypeChar16 ||| kTypeChar32 ||| kTypeLong ||| kTypeLongLong |||
      kTypeBool ||| kTypeEnum ||| kTypeUnsigned ||| kTypeSigned |||
      kTypeBitInt ||| kTypeInt128 ||| kTypeWchar)

/-- `TypeIsBitInt`. -/
def isBitInt (type : TypeRecord) : Bool :=
  type.isPrimitive && type.hasType kTypeBitInt

/-- `TypeIsUnsigned`. Plain `char` follows the target. -/
def isUnsigned [Compiler] (type : TypeRecord) : Bool :=
  (type.isPrimitive && type.hasType (kTypeChar8 ||| kTypeChar16 ||| kTypeChar32)) ||
    (!Compiler.plainCharIsSigned && type.type == kTypeChar) ||
    (type.isPrimitive && type.hasType (kTypeUnsigned ||| kTypeBool))

/-- `TypeIsArray`. -/
def isArray (type : TypeRecord) : Bool :=
  type.declarator == .array

/-- `TypeChainIsVolatile`. -/
def chainIsVolatile (type : TypeRecord) : Bool :=
  type.isVolatile || type.next.any TypeLevel.isVolatile

end TypeRecord

end DaveCC.Backend

/-!
## The intermediate representation

IR nodes, symbols and basic blocks as `ir.h`, `symbol.h` and `basic_block.h`
declare them. A node pointer is a `NodeId`, and a `Generator` maps each id to the
node it points at, so that two nodes are equal pointers exactly when their ids
are equal. A block's instructions are the ids from its `code` to its `end_code`
in the order of the code list.
-/

namespace DaveCC.Backend

/-- The identity of an IR node. -/
abbrev NodeId := Nat

/-- The identity of a basic block: its position in `basic_blocks`. -/
abbrev BlockId := Nat

/-- A C++26 value state carried beside the physical bits. -/
inductive ValueState where
  | valid | erroneous | indeterminate
  deriving DecidableEq, Repr

def kStorageStatic : Nat := 2
def kStorageExtern : Nat := 8
def kStorageThread : Nat := 64

/-- A variable of the program. Two symbols are one pointer when their ids agree. -/
structure Symbol where
  id : Nat
  type : TypeRecord
  storage : Nat := 0
  isLocal : Bool := false
  isArgument : Bool := false
  isTemp : Bool := false
  addressTaken : Bool := false
  deriving DecidableEq, Repr

def Symbol.storageIs (symbol : Symbol) (storage : Nat) : Bool :=
  symbol.storage &&& storage != 0

def kIRVarDef : Nat := 1 <<< 0
def kIRVarUse : Nat := 1 <<< 1
def kIRAsmMemoryClobber : Nat := 1 <<< 13

/-- One IR node. `symbol` is present on variable nodes, `ivalue` is meaningful
on integer constants, and `var` is the symbol of a marked definition or use. -/
structure IRNode where
  opcode : IROpcode
  inputs : List NodeId := []
  outputs : List NodeId := []
  block : BlockId := 0
  type : Option TypeRecord := none
  valueState : ValueState := .valid
  flags : Nat := 0
  var : Option Symbol := none
  dest : Option NodeId := none
  symbol : Option Symbol := none
  ivalue : BitVec 64 := 0
  deriving DecidableEq, Repr

/-- `IRIsVarDef`. -/
def IRNode.isVarDef (node : IRNode) : Bool :=
  node.flags &&& kIRVarDef != 0

/-- `IRIsVarRef`. -/
def IRNode.isVarRef (node : IRNode) : Bool :=
  node.flags &&& kIRVarUse != 0

/-- A basic block with its edges and the facts `AnalyzeCFG` records in it. -/
structure BasicBlock where
  instructions : List NodeId := []
  inEdges : List BlockId := []
  outEdges : List BlockId := []
  dominators : Finset BlockId := ∅
  numDominators : Nat := 0
  idom : Option BlockId := none
  dominatees : List BlockId := []
  dominanceFrontier : Finset BlockId := ∅
  reachabilityKnown : Bool := false
  isUnreachable : Bool := false
  deriving DecidableEq

/-- `end_code`: the last instruction of a block that has any. -/
def BasicBlock.endCode (block : BasicBlock) : Option NodeId :=
  block.instructions.getLast?

/-- The code generator's state: the node behind every id, and the blocks of the
function in layout order. -/
structure Generator where
  nodes : NodeId → IRNode
  basicBlocks : List BasicBlock
  entryBlock : BlockId

namespace Generator

/-- `VectorGet(&gen->basic_blocks, id)`. -/
def block (gen : Generator) (id : BlockId) : BasicBlock :=
  gen.basicBlocks.getD id {}

/-- `IRComparisonIsUnsigned`: an integer comparison follows its left operand. -/
def comparisonIsUnsigned [Compiler] (gen : Generator) (node : IRNode) : Bool :=
  match node.opcode with
  | .cmplta | .cmplea | .cmpgta | .cmpgea | .cmp3wayu | .cmp3waya => true
  | .cmplti | .cmplei | .cmpgti | .cmpgei | .cmp3wayi =>
    match node.inputs with
    | left :: _ => (gen.nodes left).type.any TypeRecord.isUnsigned
    | [] => false
  | _ => false

/-- `IRHasSideEffects`. A load has one when it or an input is volatile. -/
def hasSideEffects (gen : Generator) (node : IRNode) : Bool :=
  if node.opcode == .observableCheckpoint then true
  else if node.opcode.isBranch || node.opcode == .ret ||
      node.opcode == .calla || node.opcode.isResult then true
  else if node.opcode.isStore && node.opcode != .addressof && node.opcode != .cast then true
  else match node.opcode with
  | .enter | .leave | .pusharg | .asm | .decsp | .savesp | .restoresp => true
  | opcode =>
    opcode.isLoadOnly &&
      (node.type.any TypeRecord.chainIsVolatile ||
        node.inputs.any fun input =>
          (gen.nodes input).type.any TypeRecord.chainIsVolatile)

end Generator

end DaveCC.Backend
