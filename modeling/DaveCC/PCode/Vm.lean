import DaveCC.PCode.Machine

/-!
# The compile-time interpreter

`PCodeVMStep` of `p_code_vm.c`, with the checks of its memory accesses. A step has no
result when it evaluates an operation that the host leaves undefined.
-/

namespace DaveCC.PCode

inductive PCodeVMStatus where
  | running | halted | stepLimit | undefinedInstruction | divisionByZero | undefinedEscape
  | invalidRead | invalidWrite | invalidFree | allocationFailure | invalidConstantOperation
  | uncaughtException
  deriving DecidableEq, Repr

structure PCodeVMMemoryRegion where
  start : Word
  size : Word
  writable : Bool
  states : Option (List (BitVec 8))

/-- `PCodeVM`, without its escape handler. -/
structure PCodeVM where
  machine : Machine
  stack : Word
  stackSize : Word
  steps : Int
  maxSteps : Int
  status : PCodeVMStatus
  checkedMemory : Bool
  memoryRegions : List PCodeVMMemoryRegion
  stackEndedLow : Word
  readAfterLifetime : Bool
  failedReadState : BitVec 8

/-- `kValueStateValid` and `PCODE_VM_STATE_ENDED_LIFETIME`. -/
def validState : BitVec 8 := 0

def endedLifetimeState : BitVec 8 := 3

/-- An escape handler: a status for each code. Undefined instructions and divisions by
zero stop the machine. -/
structure PCodeVMEscapeHandler where
  handle : BitVec 32 → PCodeVM → PCodeVMStatus × PCodeVM
  stops_undefined : ∀ vm, (handle 0 vm).1 ≠ .running
  stops_division : ∀ vm, (handle 1 vm).1 ≠ .running

def defaultEscape : PCodeVMEscapeHandler where
  handle := fun code vm =>
    (if code = 4 then .halted
      else if code = 0 then .undefinedInstruction
      else if code = 1 then .divisionByZero
      else .undefinedEscape, vm)
  stops_undefined := by simp
  stops_division := by simp

/-- `RegionContains`. -/
def PCodeVMMemoryRegion.contains (region : PCodeVMMemoryRegion) (address size : Word)
    (write : Bool) : Bool :=
  if write && !region.writable then false
  else if size = 0 then region.start ≤ address && address ≤ region.start + region.size
  else if BitVec.allOnes 64 - region.start < size || address < region.start ||
      BitVec.allOnes 64 - address < size then false
  else address + size ≤ region.start + region.size

/-- A run of bytes of a list set to one value. -/
def fillStates (states : List (BitVec 8)) (offset size : Nat) (state : BitVec 8) :
    List (BitVec 8) :=
  states.take offset ++ List.replicate (min size (states.length - offset)) state ++
    states.drop (offset + size)

namespace PCodeVM

def iregs (vm : PCodeVM) : Register → Word := vm.machine.iregs

def fregs (vm : PCodeVM) : Register → BitVec 32 := vm.machine.fregs

def dregs (vm : PCodeVM) : Register → BitVec 64 := vm.machine.dregs

def setInt (register : Register) (value : Word) (vm : PCodeVM) : PCodeVM :=
  { vm with machine := vm.machine.setInt register value }

def setFloat (register : Register) (value : BitVec 32) (vm : PCodeVM) : PCodeVM :=
  { vm with machine := vm.machine.setFloat register value }

def setDouble (register : Register) (value : BitVec 64) (vm : PCodeVM) : PCodeVM :=
  { vm with machine := vm.machine.setDouble register value }

/-- `iregs[PCODE_PC_REG] += amount`. -/
def advance (amount : Word) (vm : PCodeVM) : PCodeVM :=
  vm.setInt pcReg (vm.iregs pcReg + amount)

def moveSp (amount : Word) (vm : PCodeVM) : PCodeVM :=
  vm.setInt spReg (vm.iregs spReg + amount)

def refuse (write : Bool) (vm : PCodeVM) : PCodeVM :=
  { vm with status := if write then .invalidWrite else .invalidRead }

def checkMemoryAccess (address size : Word) (write : Bool) (vm : PCodeVM) : Bool × PCodeVM :=
  if !vm.checkedMemory then (true, vm)
  else if vm.stack ≠ 0 ∧ vm.stackSize ≠ 0 ∧ vm.stack ≤ address ∧
      address < vm.stack + vm.stackSize then
    if BitVec.allOnes 64 - address < size then (false, vm.refuse write)
    else if vm.iregs spReg ≤ address ∧ address + size ≤ vm.stack + vm.stackSize then (true, vm)
    else (false, vm.refuse write)
  else if vm.memoryRegions.any fun region => region.contains address size write then (true, vm)
  else (false, vm.refuse write)

/-- The low half of an address with the high half of another. -/
def withHighHalf (high low : Word) : Word :=
  (high &&& ~~~0xffffffff) ||| (low &&& 0xffffffff)

def normalizeCheckedAddress (raw size : Word) (write : Bool) (vm : PCodeVM) : Option Word :=
  let stackEnd := vm.stack + vm.stackSize
  let inRegions := vm.memoryRegions.reverse.findSome? fun region =>
    let address := withHighHalf region.start raw
    if region.contains address size write then some address else none
  if !vm.checkedMemory then some raw
  else if vm.stack ≠ 0 ∧ vm.stackSize ≠ 0 then
    if vm.stack ≤ raw ∧ raw + size ≤ stackEnd ∧ vm.iregs spReg ≤ raw then some raw
    else
      let stackAddress := withHighHalf vm.stack raw
      if stackAddress + size ≤ stackEnd ∧ vm.iregs spReg ≤ stackAddress then some stackAddress
      else inRegions
  else inRegions

def widenAddress (narrow : BitVec 32) (vm : PCodeVM) : Word :=
  if narrow = 0 then narrow.setWidth 64
  else (vm.normalizeCheckedAddress (narrow.setWidth 64) 0 false).getD (narrow.setWidth 64)

/-- The last stateful region that contains an access, by its index. -/
def statefulRegion (address size : Word) (write : Bool) (vm : PCodeVM) :
    Option (Nat × PCodeVMMemoryRegion × List (BitVec 8)) :=
  vm.memoryRegions.zipIdx.reverse.findSome? fun (region, index) =>
    match region.states with
    | none => none
    | some states =>
      if region.contains address size write then some (index, region, states) else none

/-- The states of the bytes of an access: a write makes them valid, a read is refused
when one is not. -/
def accessStates (address size : Word) (write : Bool) (vm : PCodeVM) : Option Word × PCodeVM :=
  match vm.statefulRegion address size write with
  | none => (some address, vm)
  | some (index, region, states) =>
    let offset := (address - region.start).toNat
    if write then
      let states := fillStates states offset size.toNat validState
      let regions := vm.memoryRegions.set index { region with states := some states }
      (some address, { vm with memoryRegions := regions })
    else
      match ((states.drop offset).take size.toNat).find? fun state => state != validState with
      | none => (some address, vm)
      | some state =>
        let refused := vm.refuse false
        (none, { refused with
          readAfterLifetime := state == endedLifetimeState, failedReadState := state })

def accessPointer (address size : Word) (write : Bool) (vm : PCodeVM) : Option Word × PCodeVM :=
  let first := vm.checkMemoryAccess address size write
  if first.1 then first.2.accessStates address size write
  else
    match first.2.normalizeCheckedAddress address size write with
    | none => (none, first.2)
    | some normalized =>
      let second := first.2.checkMemoryAccess normalized size write
      if second.1 then
        let resumed := { second.2 with status := .running }
        resumed.accessStates normalized size write
      else (none, second.2)

/-- An access, followed by what is done with the pointer unless that is `NULL`. -/
def access (address size : Word) (write : Bool) (next : Word → PCodeVM → Option PCodeVM)
    (vm : PCodeVM) : Option PCodeVM :=
  match vm.accessPointer address size write with
  | (none, vm) => some vm
  | (some pointer, vm) => if pointer = 0 then some vm else next pointer vm

def readU8 (address : Word) (next : BitVec 8 → PCodeVM → Option PCodeVM) (vm : PCodeVM) :
    Option PCodeVM :=
  vm.access address 1 false fun pointer vm => next (vm.machine.memory pointer) vm

def readU16 (address : Word) (next : BitVec 16 → PCodeVM → Option PCodeVM) (vm : PCodeVM) :
    Option PCodeVM :=
  vm.access address 2 false fun pointer vm => next (vm.machine.memory.readU16 pointer) vm

def readU32 (address : Word) (next : BitVec 32 → PCodeVM → Option PCodeVM) (vm : PCodeVM) :
    Option PCodeVM :=
  vm.access address 4 false fun pointer vm => next (vm.machine.memory.readU32 pointer) vm

def readU64 (address : Word) (next : BitVec 64 → PCodeVM → Option PCodeVM) (vm : PCodeVM) :
    Option PCodeVM :=
  vm.access address 8 false fun pointer vm => next (vm.machine.memory.readU64 pointer) vm

def write (size : Word) (store : Memory → Word → Memory) (address : Word)
    (next : PCodeVM → Option PCodeVM) (vm : PCodeVM) : Option PCodeVM :=
  vm.access address size true fun pointer vm =>
    next { vm with machine := vm.machine.setMemory (store vm.machine.memory pointer) }

def writeU8 (address : Word) (value : BitVec 8) :
    (PCodeVM → Option PCodeVM) → PCodeVM → Option PCodeVM :=
  write 1 (fun memory place => memory.writeU8 place value) address

def writeU16 (address : Word) (value : BitVec 16) :
    (PCodeVM → Option PCodeVM) → PCodeVM → Option PCodeVM :=
  write 2 (fun memory place => memory.writeU16 place value) address

def writeU32 (address : Word) (value : BitVec 32) :
    (PCodeVM → Option PCodeVM) → PCodeVM → Option PCodeVM :=
  write 4 (fun memory place => memory.writeU32 place value) address

def writeU64 (address : Word) (value : BitVec 64) :
    (PCodeVM → Option PCodeVM) → PCodeVM → Option PCodeVM :=
  write 8 (fun memory place => memory.writeU64 place value) address

/-- `PCodeVMForgetEndedStackLifetimes`. -/
def forgetEndedStackLifetimes (vm : PCodeVM) : PCodeVM :=
  let sp := vm.iregs spReg
  if sp ≤ vm.stackEndedLow then vm
  else
    let forget (region : PCodeVMMemoryRegion) : PCodeVMMemoryRegion :=
      let limit := if sp < region.start + region.size then sp else region.start + region.size
      let offset := (vm.stackEndedLow - region.start).toNat
      let size := (limit - vm.stackEndedLow).toNat
      let filled := region.states.map fun states => fillStates states offset size validState
      if vm.stackEndedLow < limit then { region with states := filled } else region
    let regions :=
      match vm.memoryRegions.findIdx? fun region =>
        region.start = vm.stack && region.states.isSome with
      | none => vm.memoryRegions
      | some index => vm.memoryRegions.modify index forget
    { vm with memoryRegions := regions, stackEndedLow := sp }

/-- The check before `PCodeVMForgetEndedStackLifetimes` is called. -/
def forgetBelowSp (vm : PCodeVM) : PCodeVM :=
  if vm.stackEndedLow < vm.iregs spReg then vm.forgetEndedStackLifetimes else vm

/-! ## Steps -/

/-- What an integer instruction computes from `SRC1` and `SRC2`. -/
def intOp (inst : BitVec 32) (op : Word → Word → Word) (vm : PCodeVM) : Option PCodeVM :=
  some (vm.setInt (dest inst) (op (vm.iregs (src1 inst)) (vm.iregs (src2 inst))))

/-- The same for an operation of the host that may be undefined. -/
def hostOp (inst : BitVec 32) (op : Word → Word → Option Word) (vm : PCodeVM) : Option PCodeVM :=
  (op (vm.iregs (src1 inst)) (vm.iregs (src2 inst))).map fun value => vm.setInt (dest inst) value

def singleOp (inst : BitVec 32) (op : BitVec 32 → BitVec 32 → BitVec 32) (vm : PCodeVM) :
    Option PCodeVM :=
  some (vm.setFloat (dest inst) (op (vm.fregs (src1 inst)) (vm.fregs (src2 inst))))

def doubleOp (inst : BitVec 32) (op : BitVec 64 → BitVec 64 → BitVec 64) (vm : PCodeVM) :
    Option PCodeVM :=
  some (vm.setDouble (dest inst) (op (vm.dregs (src1 inst)) (vm.dregs (src2 inst))))

def compareSingle (inst : BitVec 32) (op : BitVec 32 → BitVec 32 → Word) (vm : PCodeVM) :
    Option PCodeVM :=
  some (vm.setInt (dest inst) (op (vm.fregs (src1 inst)) (vm.fregs (src2 inst))))

def compareDouble (inst : BitVec 32) (op : BitVec 64 → BitVec 64 → Word) (vm : PCodeVM) :
    Option PCodeVM :=
  some (vm.setInt (dest inst) (op (vm.dregs (src1 inst)) (vm.dregs (src2 inst))))

/-- `vm->status` set to what the escape handler returns. -/
def stopWith (escape : PCodeVMEscapeHandler) (code : BitVec 32) (vm : PCodeVM) :
    Option PCodeVM :=
  let handled := escape.handle code vm
  some { handled.2 with status := handled.1 }

/-- The switch over the 32 bit instructions. -/
def step32 (floats : HostFloats) (escape : PCodeVMEscapeHandler) (inst : BitVec 32)
    (opcode : Opcode32) (vm : PCodeVM) : Option PCodeVM :=
  let single := floats.single
  let double := floats.double
  match opcode with
  | .add => vm.intOp inst fun a b => a + b
  | .sub => vm.intOp inst fun a b => a - b
  | .addf => vm.singleOp inst single.add
  | .addd => vm.doubleOp inst double.add
  | .subf => vm.singleOp inst single.sub
  | .subd => vm.doubleOp inst double.sub
  | .mul => vm.intOp inst fun a b => a * b
  | .mulf => vm.singleOp inst single.mul
  | .muld => vm.doubleOp inst double.mul
  | .div =>
    if vm.iregs (src2 inst) = 0 then vm.stopWith escape 1 else vm.hostOp inst hostDiv
  | .divu =>
    if vm.iregs (src2 inst) = 0 then vm.stopWith escape 1 else vm.hostOp inst hostDivU
  | .divf =>
    if single.eq (vm.fregs (src2 inst)) 0 then vm.stopWith escape 1
    else vm.singleOp inst single.div
  | .divd =>
    if double.eq (vm.dregs (src2 inst)) 0 then vm.stopWith escape 1
    else vm.doubleOp inst double.div
  | .mod =>
    if vm.iregs (src2 inst) = 0 then vm.stopWith escape 1 else vm.hostOp inst hostMod
  | .modu =>
    if vm.iregs (src2 inst) = 0 then vm.stopWith escape 1 else vm.hostOp inst hostModU
  | .lsr => vm.hostOp inst (hostShift fun a count => a >>> count)
  | .asr => vm.hostOp inst (hostShift fun a count => a.sshiftRight count)
  | .lsl => vm.hostOp inst (hostShift fun a count => a <<< count)
  | .or => vm.intOp inst fun a b => a ||| b
  | .and => vm.intOp inst fun a b => a &&& b
  | .xor => vm.intOp inst fun a b => a ^^^ b
  | .not => vm.intOp inst fun a _ => truth (a = 0)
  | .inv => vm.intOp inst fun a _ => ~~~a
  | .neg => vm.intOp inst fun a _ => -a
  | .negf => vm.singleOp inst fun a _ => single.neg a
  | .negd => vm.doubleOp inst fun a _ => double.neg a
  | .cmpeq => vm.intOp inst fun a b => truth (a = b)
  | .cmpne => vm.intOp inst fun a b => truth (a ≠ b)
  | .cmplt => vm.intOp inst fun a b => truth (a.slt b)
  | .cmple => vm.intOp inst fun a b => truth (a.sle b)
  | .cmpgt => vm.intOp inst fun a b => truth (b.slt a)
  | .cmpge => vm.intOp inst fun a b => truth (b.sle a)
  | .cmpltu => vm.intOp inst fun a b => truth (a < b)
  | .cmpleu => vm.intOp inst fun a b => truth (a ≤ b)
  | .cmpgtu => vm.intOp inst fun a b => truth (b < a)
  | .cmpgeu => vm.intOp inst fun a b => truth (b ≤ a)
  | .cmpeqf => vm.compareSingle inst fun a b => truth (single.eq a b)
  | .cmpnef => vm.compareSingle inst fun a b => truth (!single.eq a b)
  | .cmpltf => vm.compareSingle inst fun a b => truth (single.lt a b)
  | .cmplef => vm.compareSingle inst fun a b => truth (single.le a b)
  | .cmpgtf => vm.compareSingle inst fun a b => truth (single.lt b a)
  | .cmpgef => vm.compareSingle inst fun a b => truth (single.le b a)
  | .cmpeqd => vm.compareDouble inst fun a b => truth (double.eq a b)
  | .cmpned => vm.compareDouble inst fun a b => truth (!double.eq a b)
  | .cmpltd => vm.compareDouble inst fun a b => truth (double.lt a b)
  | .cmpled => vm.compareDouble inst fun a b => truth (double.le a b)
  | .cmpgtd => vm.compareDouble inst fun a b => truth (double.lt b a)
  | .cmpged => vm.compareDouble inst fun a b => truth (double.le b a)
  | .cmp3way => vm.intOp inst fun a b => if a.slt b then -1 else if b.slt a then 1 else 0
  | .cmp3wayu => vm.intOp inst fun a b => if a < b then -1 else if b < a then 1 else 0
  | .cmp3wayf => vm.compareSingle inst single.threeWay
  | .cmp3wayd => vm.compareDouble inst double.threeWay
  | .decsp => some (vm.moveSp (-(immediate24 inst).setWidth 64))
  | .incsp => some (vm.moveSp ((immediate24 inst).setWidth 64))
  | .push =>
    let vm := vm.moveSp (-4)
    vm.writeU32 (vm.iregs spReg) ((vm.iregs (dest inst)).setWidth 32) some
  | .pushf =>
    let vm := vm.moveSp (-4)
    vm.writeU32 (vm.iregs spReg) (vm.fregs (dest inst)) some
  | .pushd =>
    let vm := vm.moveSp (-8)
    vm.writeU64 (vm.iregs spReg) (vm.dregs (dest inst)) some
  | .pushx =>
    let vm := vm.moveSp (-8)
    vm.writeU64 (vm.iregs spReg) (vm.iregs (dest inst)) some
  | .pop =>
    vm.readU32 (vm.iregs spReg) fun value vm =>
      some ((vm.setInt (dest inst) (value.signExtend 64)).moveSp 4)
  | .popf =>
    vm.readU32 (vm.iregs spReg) fun value vm =>
      some ((vm.setFloat (dest inst) value).moveSp 4)
  | .popd =>
    vm.readU64 (vm.iregs spReg) fun value vm =>
      some ((vm.setDouble (dest inst) value).moveSp 8)
  | .popx =>
    vm.readU64 (vm.iregs spReg) fun value vm =>
      some ((vm.setInt (dest inst) value).moveSp 8)
  | .mov => vm.intOp inst fun a _ => a
  | .movf => vm.singleOp inst fun a _ => a
  | .movd => vm.doubleOp inst fun a _ => a
  | .ret =>
    vm.readU64 (vm.iregs spReg) fun returnAddress vm =>
      some ((vm.setInt pcReg returnAddress).moveSp 8).forgetBelowSp
  | .cbra => some (vm.advance (vm.iregs (dest inst) * 8))
  | .i2f => some (vm.setFloat (dest inst) (single.ofInt (vm.iregs (src1 inst))))
  | .i2d => some (vm.setDouble (dest inst) (double.ofInt (vm.iregs (src1 inst))))
  | .ui2f => some (vm.setFloat (dest inst) (single.ofUInt (vm.iregs (src1 inst))))
  | .ui2d => some (vm.setDouble (dest inst) (double.ofUInt (vm.iregs (src1 inst))))
  | .f2d => some (vm.setDouble (dest inst) (floats.widen (vm.fregs (src1 inst))))
  | .d2f => some (vm.setFloat (dest inst) (floats.narrow (vm.dregs (src1 inst))))
  | .f2i => (single.toInt (vm.fregs (src1 inst))).map fun value => vm.setInt (dest inst) value
  | .d2i => (double.toInt (vm.dregs (src1 inst))).map fun value => vm.setInt (dest inst) value
  | .f2ui => (single.toUInt (vm.fregs (src1 inst))).map fun value => vm.setInt (dest inst) value
  | .d2ui => (double.toUInt (vm.dregs (src1 inst))).map fun value => vm.setInt (dest inst) value
  | .rcall =>
    let vm := vm.moveSp (-8)
    vm.writeU64 (vm.iregs spReg) (vm.iregs pcReg) fun vm =>
      let vm := vm.forgetBelowSp
      some (vm.setInt pcReg (vm.iregs (dest inst)))
  | .esc =>
    let handled := escape.handle (immediate24 inst) vm
    if handled.1 ≠ .running then some { handled.2 with status := handled.1 }
    else some handled.2

/-- A load: the offset behind the instruction, then the bytes at `SRC1` plus the offset. -/
def load {width : Nat} (inst : BitVec 32) (pc : Word)
    (read : Word → (BitVec width → PCodeVM → Option PCodeVM) → PCodeVM → Option PCodeVM)
    (keep : BitVec width → PCodeVM → PCodeVM) (vm : PCodeVM) : Option PCodeVM :=
  vm.readU32 pc fun offset vm =>
    read (vm.iregs (src1 inst) + offset.signExtend 64)
      (fun value vm => some ((keep value vm).advance 4)) vm

def store (inst : BitVec 32) (pc : Word)
    (write : PCodeVM → Word → (PCodeVM → Option PCodeVM) → PCodeVM → Option PCodeVM)
    (vm : PCodeVM) : Option PCodeVM :=
  vm.readU32 pc fun offset vm =>
    write vm (vm.iregs (src1 inst) + offset.signExtend 64) (fun vm => some (vm.advance 4)) vm

/-- A branch by the offset behind the instruction when a condition holds. -/
def branch (pc : Word) (taken : PCodeVM → Bool) (vm : PCodeVM) : Option PCodeVM :=
  vm.readU32 pc fun offset vm =>
    some (vm.advance (if taken vm then (offset + 4).signExtend 64 else 4))

/-- The switch over the 64 bit instructions. -/
def step64 (inst : BitVec 32) (pc : Word) (opcode : Opcode64) (vm : PCodeVM) :
    Option PCodeVM :=
  match opcode with
  | .ldw => vm.load inst pc readU32 fun value =>
    setInt (dest inst) (value.signExtend 64)
  | .ldh => vm.load inst pc readU16 fun value =>
    setInt (dest inst) (value.signExtend 64)
  | .ldb => vm.load inst pc readU8 fun value =>
    setInt (dest inst) (value.signExtend 64)
  | .lduw => vm.load inst pc readU32 fun value =>
    setInt (dest inst) (value.setWidth 64)
  | .lda => vm.load inst pc readU32 fun value vm =>
    vm.setInt (dest inst) (vm.widenAddress value)
  | .ldub => vm.load inst pc readU8 fun value =>
    setInt (dest inst) (value.setWidth 64)
  | .lduh => vm.load inst pc readU16 fun value =>
    setInt (dest inst) (value.setWidth 64)
  | .ldx => vm.load inst pc readU64 fun value =>
    setInt (dest inst) value
  | .ldf => vm.load inst pc readU32 fun value =>
    setFloat (dest inst) value
  | .ldd => vm.load inst pc readU64 fun value =>
    setDouble (dest inst) value
  | .stw => vm.store inst pc fun vm address =>
    writeU32 address ((vm.iregs (dest inst)).setWidth 32)
  | .sth => vm.store inst pc fun vm address =>
    writeU16 address ((vm.iregs (dest inst)).setWidth 16)
  | .stx => vm.store inst pc fun vm address => writeU64 address (vm.iregs (dest inst))
  | .stf => vm.store inst pc fun vm address => writeU32 address (vm.fregs (dest inst))
  | .std => vm.store inst pc fun vm address => writeU64 address (vm.dregs (dest inst))
  | .stb => vm.store inst pc fun vm address =>
    writeU8 address ((vm.iregs (dest inst)).setWidth 8)
  | .movc => vm.readU32 pc fun value vm =>
    some ((vm.setInt (dest inst) (value.signExtend 64)).advance 4)
  | .movfc => vm.readU32 pc fun value vm => some ((vm.setFloat (dest inst) value).advance 4)
  | .bz => vm.branch pc fun vm => vm.iregs (dest inst) = 0
  | .bnz => vm.branch pc fun vm => vm.iregs (dest inst) ≠ 0
  | .bra => vm.branch pc fun _ => true
  | .addc => vm.readU32 pc fun value vm =>
    some ((vm.setInt (dest inst) (vm.iregs (src1 inst) + value.signExtend 64)).advance 4)

/-- The switch over the 96 bit instructions. -/
def step96 (inst : BitVec 32) (pc : Word) (opcode : Opcode96) (vm : PCodeVM) :
    Option PCodeVM :=
  match opcode with
  | .movdc => vm.readU64 pc fun value vm => some ((vm.setDouble (dest inst) value).advance 8)
  | .movxc => vm.readU64 pc fun value vm => some ((vm.setInt (dest inst) value).advance 8)
  | .jmp => vm.readU64 pc fun offset vm =>
    some (vm.setInt pcReg (offset + vm.iregs pcReg + 8))
  | .call =>
    let vm := vm.moveSp (-8)
    vm.writeU64 (vm.iregs spReg) (vm.iregs pcReg + 8) fun vm =>
      vm.forgetBelowSp.readU64 pc fun offset vm =>
        some (vm.setInt pcReg (offset + vm.iregs pcReg + 8))
  | .cjmp => vm.readU64 pc fun offset vm =>
    vm.readU64 (vm.iregs pcReg + 8 + offset) fun target vm =>
      some (vm.setInt pcReg target)
  | .adr => vm.readU64 pc fun offset vm =>
    some ((vm.setInt (dest inst) (offset + vm.iregs pcReg + 8)).advance 8)

/-- `PCodeVMStep`. -/
def step (floats : HostFloats) (escape : PCodeVMEscapeHandler) (vm : PCodeVM) :
    Option PCodeVM :=
  if vm.status ≠ .running then some vm
  else if 0 ≤ vm.maxSteps ∧ vm.maxSteps ≤ vm.steps then some { vm with status := .stepLimit }
  else
    let vm := { vm with steps := vm.steps + 1 }
    let pc := vm.iregs pcReg
    vm.readU32 pc fun inst vm =>
      let pc := pc + 4
      let vm := vm.advance 4
      match decode inst with
      | .short (some opcode) => vm.step32 floats escape inst opcode
      | .medium (some opcode) => vm.step64 inst pc opcode
      | .long (some opcode) => vm.step96 inst pc opcode
      | .short none | .medium none | .long none => vm.stopWith escape 0

end PCodeVM

end DaveCC.PCode
