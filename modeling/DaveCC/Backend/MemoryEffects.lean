import DaveCC.Memory.Provenance
import DaveCC.Backend.ControlFlowGraph

/-!
# What instructions do to memory

Every variable of a function is an object of memory, and its node stands for the address
of the object. The address of a load, a store or an update is its first input, with any
further inputs of a load, and those behind the value of a store, as byte offsets. An
address keeps its object through `adda`, `addressof` and `cast`. What this semantics does
not follow may be any word and, where memory is written, any bytes. An address never
appears from nowhere: it comes from an operand, from memory or from code that knows it.
-/

namespace DaveCC.Backend

open DaveCC.Memory

/-- How an instruction uses memory. -/
inductive MemoryAccess where
  /-- It works on registers only. -/
  | none
  /-- It reads the bytes at its address. -/
  | load
  /-- It writes its second input at its address. -/
  | store
  /-- It steps the number at its address. -/
  | update
  /-- It writes a result of its operands at its address. -/
  | modify
  /-- It writes into the objects that its operands point into. -/
  | objects
  /-- It runs code outside of the function. -/
  | outside
  /-- It runs the text of an `asm` statement. -/
  | assembly
  deriving DecidableEq, Repr

def IROpcode.memoryAccess : IROpcode → MemoryAccess
  | .load32 | .load8 | .load64 | .load16 | .loadu32 | .loadu8 | .loadu16 | .loadf | .loadd
  | .loada | .atomicLoad => .load
  | .store32 | .store8 | .store16 | .store64 | .storef | .stored | .storea => .store
  | .inc8 | .inc16 | .inc32 | .inc64 | .uinc8 | .uinc16 | .uinc32 | .uinc64 | .inca | .incf
  | .incd | .dec8 | .dec16 | .dec32 | .dec64 | .udec8 | .udec16 | .udec32 | .udec64 | .deca
  | .decf | .decd => .update
  | .vadd | .vsub | .vmul | .vdiv | .vmod | .vlsl | .vlsr | .vasr | .vand | .vor | .vxor
  | .vneg | .vonescomp | .vcmpeq | .vcmpne | .vcmplt | .vcmple | .vcmpgt | .vcmpge | .vcmpltu
  | .vcmpleu | .vcmpgtu | .vcmpgeu | .capturev | .atomicStore | .atomicFetchAdd
  | .atomicFetchSub | .atomicAddFetch | .atomicSubFetch | .atomicCompareExchangeBool
  | .atomicCompareExchangeVal => .modify
  | .memzero | .memcpy | .atomicCompareExchangeN | .builtinVaStart | .builtinVaArg
  | .builtinVaEnd | .builtinVaCopy => .objects
  | .calla => .outside
  | .asm => .assembly
  | _ => .none

variable {opcode : IROpcode}

/-- Only a call runs code outside of the function. -/
theorem IROpcode.eq_calla_of_access (access : opcode.memoryAccess = .outside) :
    opcode = .calla := by
  cases opcode <;> simp_all [IROpcode.memoryAccess]

/-- Only an `asm` statement runs a text. -/
theorem IROpcode.eq_asm_of_access (access : opcode.memoryAccess = .assembly) : opcode = .asm := by
  cases opcode <;> simp_all [IROpcode.memoryAccess]

namespace IRNode

/-- `IRGetVariableSymbol`: the variable that the node stands for. -/
def variableSymbol (node : IRNode) : Option Symbol :=
  match node.opcode with
  | .localvar | .argument | .tempvar | .staticvar | .externvar | .ssavar | .phi => node.symbol
  | _ => none

/-- The operands that are byte offsets: those of `load [base, off...]` and of
`store [base, value, off...]`. -/
def offsetOperands (node : IRNode) : List NodeId :=
  if node.opcode.isLoadOnly then node.inputs.drop 1
  else if node.opcode.isStoreOnly then node.inputs.drop 2
  else []

/-- `IRAsmClobbersMemory`. -/
def asmClobbersMemory (node : IRNode) : Bool :=
  node.opcode == .asm && node.flags &&& kIRAsmMemoryClobber != 0

theorem eq_asm_of_clobbers {node : IRNode} (clobbers : node.asmClobbersMemory = true) :
    node.opcode = .asm := by
  unfold asmClobbersMemory at clobbers
  simp only [Bool.and_eq_true, beq_iff_eq] at clobbers
  exact clobbers.1

end IRNode

/-- A function with what the back ends know of it: the width of an address, the sizes of
the objects that an `asm` statement writes, whose addresses are its inputs behind the
text, and the symbols that live in the caller's return slot. -/
structure MemoryFunction where
  gen : Generator
  pointerSize : Nat
  asmOutputs : NodeId → List Nat
  isNrvo : Nat → Bool

/-- The state of a run: what the instructions evaluated to, memory, and the objects that
code outside of the function can name. -/
structure MachineState (Object : Type) where
  values : NodeId → Option (Value Object)
  memory : Contents Object
  known : Set Object

namespace MemoryFunction

variable {Object : Type} (fn : MemoryFunction) (place : Nat → Object)
  (state : MachineState Object) (id : NodeId)

/-- The number of bytes at its address that an instruction reads or writes. -/
def accessWidth : Option Nat :=
  let node := fn.gen.nodes id
  match node.opcode with
  | .load8 | .loadu8 | .store8 | .inc8 | .uinc8 | .dec8 | .udec8 => some 1
  | .load16 | .loadu16 | .store16 | .inc16 | .uinc16 | .dec16 | .udec16 => some 2
  | .load32 | .loadu32 | .store32 | .inc32 | .uinc32 | .dec32 | .udec32
  | .loadf | .storef | .incf | .decf => some 4
  | .load64 | .store64 | .inc64 | .uinc64 | .dec64 | .udec64
  | .loadd | .stored | .incd | .decd => some 8
  | .loada | .storea | .inca | .deca => some fn.pointerSize
  | .atomicLoad | .atomicStore | .atomicFetchAdd | .atomicFetchSub | .atomicAddFetch
  | .atomicSubFetch | .atomicCompareExchangeBool | .atomicCompareExchangeVal => do
      let address ← node.inputs.head?
      let type ← (fn.gen.nodes address).type
      let pointee ← type.next.head?
      some pointee.size
  | opcode => if opcode.memoryAccess = .modify then node.type.map (·.size) else none

/-- The value of an operand. The node of a variable stands for its address. -/
def operand : Option (Value Object) :=
  match (fn.gen.nodes id).variableSymbol with
  | some symbol => some ⟨0, some (place symbol.id)⟩
  | none =>
    if (fn.gen.nodes id).opcode.isConst then some ⟨(fn.gen.nodes id).ivalue, none⟩
    else state.values id

/-- The address that an instruction uses. A word that carries no object is none. -/
def address : Option (Location Object) := do
  let base ← (fn.gen.nodes id).inputs.head?
  let value ← fn.operand place state base
  let object ← value.object
  let offset ← (fn.gen.nodes id).offsetOperands.foldlM
    (fun offset extra => (fn.operand place state extra).map (offset + ·.word)) value.word
  some (object, offset)

/-- The objects that the operands of an instruction point into. -/
def operandObjects : Set Object :=
  {object | ∃ input ∈ (fn.gen.nodes id).inputs, ∃ value,
    fn.operand place state input = some value ∧ value.object = some object}

/-- The objects within reach of code that gets the operands and reads memory. -/
def reached : Set Object :=
  state.known ∪ fn.operandObjects place state id ∪ carriedBy state.memory

/-- The bytes at the address of an instruction. -/
def bytesAccessed : Set (Location Object) :=
  {location | ∃ object offset width, fn.address place state id = some (object, offset) ∧
    fn.accessWidth id = some width ∧ location ∈ bytesAt object offset width}

/-- The bytes that the access of an instruction may touch. -/
def touched : Set (Location Object) :=
  match (fn.gen.nodes id).opcode.memoryAccess with
  | .load | .store | .update | .modify => fn.bytesAccessed place state id
  | .objects => {location | location.1 ∈ fn.operandObjects place state id}
  | _ => ∅

/-- The bytes of the objects that an `asm` statement has as outputs. -/
def asmWrites : Set (Location Object) :=
  {location | ∃ index size, (fn.asmOutputs id)[index]? = some size ∧
    ∃ input ∈ (fn.gen.nodes id).inputs[index + 1]?, ∃ value object,
      fn.operand place state input = some value ∧ value.object = some object ∧
        location ∈ bytesAt object value.word size}

/-- The bytes that an instruction may write. -/
def writes : Set (Location Object) :=
  match (fn.gen.nodes id).opcode.memoryAccess with
  | .none | .load => ∅
  | .store | .update | .modify | .objects => fn.touched place state id
  | .outside => {location | location.1 ∈ fn.reached place state id}
  | .assembly =>
    if (fn.gen.nodes id).asmClobbersMemory then
      {location | location.1 ∈ fn.reached place state id}
    else fn.asmWrites place state id

/-- The objects that the results of an instruction may point into. -/
def brings : Set Object :=
  match (fn.gen.nodes id).opcode.memoryAccess with
  | .load | .update => carriedBy state.memory
  | .store => {object | ∃ input ∈ (fn.gen.nodes id).inputs[1]?, ∃ value,
      fn.operand place state input = some value ∧ value.object = some object}
  | _ => fn.reached place state id

/-- The objects that code outside of the function learns of. -/
def learns : Set Object :=
  match (fn.gen.nodes id).opcode.memoryAccess with
  | .outside | .assembly => fn.reached place state id
  | _ => ∅

/-! ## Execution -/

/-- A cast to a type with fewer bytes does not keep an address. -/
def narrows (operand : NodeId) : Bool :=
  match (fn.gen.nodes id).type, (fn.gen.nodes operand).type with
  | some result, some source => result.size < source.size
  | _, _ => false

/-- The values that an instruction may evaluate to. -/
def Produces (value : Value Object) : Prop :=
  match (fn.gen.nodes id).opcode, (fn.gen.nodes id).inputs with
  | .adda, [left, right] => ∃ a b, fn.operand place state left = some a ∧
      fn.operand place state right = some b ∧ value = a.add b
  | .addressof, [source] => fn.operand place state source = some value
  | .cast, [source] =>
    if fn.narrows id source then value.object = none
    else fn.operand place state source = some value
  | _, _ => ∀ object, value.object = some object → object ∈ fn.brings place state id

/-- An instruction sets its own value, and that of the temporary it has as `dest`. -/
def assign (values : NodeId → Option (Value Object)) (value : Value Object) :
    NodeId → Option (Value Object) :=
  Function.update
    (match (fn.gen.nodes id).dest with
    | some dest => Function.update values dest (some value)
    | none => values)
    id (some value)

/-- The instruction is the node of a variable or of a constant, which does nothing. -/
def isStanding : Bool :=
  (fn.gen.nodes id).opcode.isVariable || (fn.gen.nodes id).opcode.isConst

/-- An instruction takes one state to another. -/
inductive Executes (before : MachineState Object) : MachineState Object → Prop where
  | standing (stands : fn.isStanding id = true) : Executes before before
  | evaluates {after : MachineState Object} {value : Value Object}
      (evaluated : fn.isStanding id = false)
      (produces : fn.Produces place before id value)
      (values : after.values = fn.assign id before.values value)
      (changes : ChangesOnly (fn.writes place before id) before.memory after.memory)
      (brings : BringsOnly (fn.brings place before id) before.memory after.memory)
      (known : after.known ⊆ before.known ∪ fn.learns place before id) :
      Executes before after

variable {fn place state id}

/-- An address is the value of the first input with the offsets added to it. -/
theorem exists_of_address {object : Object} {word : BitVec 64}
    (performs : fn.address place state id = some (object, word)) :
    ∃ base value, (fn.gen.nodes id).inputs.head? = some base ∧
      fn.operand place state base = some value ∧ value.object = some object ∧
        (fn.gen.nodes id).offsetOperands.foldlM
          (fun offset extra => (fn.operand place state extra).map (offset + ·.word)) value.word =
            some word := by
  rcases Option.bind_eq_some_iff.mp performs with ⟨base, isHead, performs⟩
  rcases Option.bind_eq_some_iff.mp performs with ⟨value, evaluates, performs⟩
  rcases Option.bind_eq_some_iff.mp performs with ⟨carried, carries, performs⟩
  rcases Option.bind_eq_some_iff.mp performs with ⟨result, offsets, same⟩
  cases same
  exact ⟨base, value, isHead, evaluates, carries, offsets⟩

end MemoryFunction

end DaveCC.Backend

/-!
## Runs of a function over memory

A run goes through the instructions of a block in their order and leaves the block, at
its end, over one of its edges. `CreateBasicBlocks` ends a block at a call from which a
landing pad can be entered, so that such an edge is one of them. A return ends the run.
The return register holds what the last result instruction or the last call put there.
-/

namespace DaveCC.Backend

open DaveCC.Memory

/-- The variable has a place in the frame of every activation: it is neither static nor
extern. -/
def Symbol.isAutomatic (symbol : Symbol) : Bool :=
  symbol.isArgument || symbol.isTemp || (symbol.isLocal && !symbol.storageIs kStorageStatic)

/-- A place in a run: the block, the instructions left in it, the state and the return
register. -/
structure Config (Object : Type) where
  block : BlockId
  rest : List NodeId
  state : MachineState Object
  result : Option (Value Object)

namespace MemoryFunction

variable {Object : Type} (fn : MemoryFunction) (place : Nat → Object)

/-- The objects of the function's own frame. -/
def frame : Set Object :=
  {object | ∃ id symbol, (fn.gen.nodes id).variableSymbol = some symbol ∧
    symbol.isAutomatic = true ∧ fn.isNrvo symbol.id = false ∧ object = place symbol.id}

/-- A run starts at the entry block with a new frame: nothing knows of its objects. Only
the address of the return slot has been evaluated. -/
structure Starts (config : Config Object) : Prop where
  block : config.block = fn.gen.entryBlock
  rest : config.rest = (fn.gen.block fn.gen.entryBlock).instructions
  known : Disjoint config.state.known (fn.frame place)
  memory : Disjoint (carriedBy config.state.memory) (fn.frame place)
  values : ∀ id value, config.state.values id = some value →
    (fn.gen.nodes id).opcode = .structreturn ∧
      ∀ object, value.object = some object → object ∉ fn.frame place

/-- What an instruction leaves in the return register. -/
def Returns (id : NodeId) (before after : MachineState Object)
    (result final : Option (Value Object)) : Prop :=
  if (fn.gen.nodes id).opcode.isResult then
    ∃ input ∈ (fn.gen.nodes id).inputs.head?, final = fn.operand place before input
  else if (fn.gen.nodes id).opcode = .calla then final = after.values id
  else if (fn.gen.nodes id).opcode = .asm then True
  else final = result

/-- One step of a run: an instruction, or an edge when the block is done. -/
inductive Step : Config Object → Config Object → Prop where
  | instruction {block : BlockId} {id : NodeId} {rest : List NodeId}
      {before after : MachineState Object} {result final : Option (Value Object)}
      (continues : (fn.gen.nodes id).opcode ≠ .ret)
      (executes : fn.Executes place id before after)
      (returns : fn.Returns place id before after result final) :
      Step ⟨block, id :: rest, before, result⟩ ⟨block, rest, after, final⟩
  | edge {block target : BlockId} {state : MachineState Object}
      {result : Option (Value Object)} (follows : fn.gen.Edge block target) :
      Step ⟨block, [], state, result⟩ ⟨target, (fn.gen.block target).instructions, state, result⟩

/-- The places that a run gets to. -/
abbrev Reaches : Config Object → Config Object → Prop :=
  Relation.ReflTransGen (fn.Step place)

/-- The instructions of the function's blocks. -/
def Lists (id : NodeId) : Prop :=
  ∃ block, id ∈ (fn.gen.block block).instructions

variable {fn place} {start config next : Config Object}

/-- What is left of a block is the end of its instructions. -/
theorem Step.rest_suffix (step : fn.Step place config next)
    (isEnd : config.rest <:+ (fn.gen.block config.block).instructions) :
    next.rest <:+ (fn.gen.block next.block).instructions := by
  cases step with
  | instruction => exact (List.suffix_cons _ _).trans isEnd
  | edge => exact List.suffix_refl _

/-- The same for all of a run. -/
theorem Reaches.rest_suffix (starts : fn.Starts place start)
    (reaches : fn.Reaches place start config) :
    config.rest <:+ (fn.gen.block config.block).instructions := by
  induction reaches with
  | refl =>
    rw [starts.rest, starts.block]
  | tail _ step ih => exact step.rest_suffix ih

/-- A property of states that the instructions of the function keep holds of every state
of a run that starts in one of it. -/
theorem Reaches.induct (Invariant : MachineState Object → Prop)
    (keeps : ∀ id before after, fn.Lists id → fn.Executes place id before after →
      Invariant before → Invariant after) (starts : fn.Starts place start)
    (holds : Invariant start.state) (reaches : fn.Reaches place start config) :
    Invariant config.state := by
  induction reaches with
  | refl => exact holds
  | tail reaches step ih =>
    have listed := (Reaches.rest_suffix starts reaches).subset
    cases step with
    | instruction continues executes returns =>
      exact keeps _ _ _ ⟨_, listed (List.mem_cons_self ..)⟩ executes ih
    | edge => exact ih

/-- The state in which a run gets to an instruction. -/
def Arrives (fn : MemoryFunction) (place : Nat → Object) (start : Config Object) (id : NodeId)
    (state : MachineState Object) : Prop :=
  ∃ config, fn.Reaches place start config ∧ config.rest.head? = some id ∧ config.state = state

theorem Arrives.listed {id : NodeId} {state : MachineState Object}
    (starts : fn.Starts place start) (arrives : fn.Arrives place start id state) : fn.Lists id := by
  rcases arrives with ⟨config, reaches, isNext, _⟩
  exact ⟨_, (Reaches.rest_suffix starts reaches).subset (List.mem_of_head? isNext)⟩

end MemoryFunction

end DaveCC.Backend
