import DaveCC.PCode.Machine

/-!
# The run-time interpreter

`PCodeInterpreterStep` of `p_code_interpreter.c`. Its memory accesses are the host's
own, so an access through a null pointer is an operation that the host leaves undefined.
-/

namespace DaveCC.PCode

/-- `PCodeInterpreter`, and whether the process has been ended. -/
structure PCodeInterpreter where
  machine : Machine
  exited : Bool := false

namespace PCodeInterpreter

def iregs (interpreter : PCodeInterpreter) : Register → Word := interpreter.machine.iregs

def fregs (interpreter : PCodeInterpreter) : Register → BitVec 32 := interpreter.machine.fregs

def dregs (interpreter : PCodeInterpreter) : Register → BitVec 64 := interpreter.machine.dregs

def setInt (register : Register) (value : Word) (interpreter : PCodeInterpreter) :
    PCodeInterpreter :=
  { interpreter with machine := interpreter.machine.setInt register value }

def setFloat (register : Register) (value : BitVec 32) (interpreter : PCodeInterpreter) :
    PCodeInterpreter :=
  { interpreter with machine := interpreter.machine.setFloat register value }

def setDouble (register : Register) (value : BitVec 64) (interpreter : PCodeInterpreter) :
    PCodeInterpreter :=
  { interpreter with machine := interpreter.machine.setDouble register value }

/-- `iregs[PCODE_PC_REG] += amount`. -/
def advance (amount : Word) (interpreter : PCodeInterpreter) : PCodeInterpreter :=
  interpreter.setInt pcReg (interpreter.iregs pcReg + amount)

def moveSp (amount : Word) (interpreter : PCodeInterpreter) : PCodeInterpreter :=
  interpreter.setInt spReg (interpreter.iregs spReg + amount)

/-- `DumpStateAndExit`, by way of `EscapeHandler`. -/
def dumpStateAndExit (interpreter : PCodeInterpreter) : PCodeInterpreter :=
  { interpreter with exited := true }

def readU8 (address : Word) (interpreter : PCodeInterpreter) : Option (BitVec 8) :=
  if address = 0 then none else some (interpreter.machine.memory address)

def readU16 (address : Word) (interpreter : PCodeInterpreter) : Option (BitVec 16) :=
  if address = 0 then none else some (interpreter.machine.memory.readU16 address)

def readU32 (address : Word) (interpreter : PCodeInterpreter) : Option (BitVec 32) :=
  if address = 0 then none else some (interpreter.machine.memory.readU32 address)

def readU64 (address : Word) (interpreter : PCodeInterpreter) : Option (BitVec 64) :=
  if address = 0 then none else some (interpreter.machine.memory.readU64 address)

def write (store : Memory → Word → Memory) (address : Word) (interpreter : PCodeInterpreter) :
    Option PCodeInterpreter :=
  if address = 0 then none
  else
    some { interpreter with
      machine := interpreter.machine.setMemory (store interpreter.machine.memory address) }

def writeU8 (address : Word) (value : BitVec 8) :
    PCodeInterpreter → Option PCodeInterpreter :=
  write (fun memory place => memory.writeU8 place value) address

def writeU16 (address : Word) (value : BitVec 16) :
    PCodeInterpreter → Option PCodeInterpreter :=
  write (fun memory place => memory.writeU16 place value) address

def writeU32 (address : Word) (value : BitVec 32) :
    PCodeInterpreter → Option PCodeInterpreter :=
  write (fun memory place => memory.writeU32 place value) address

def writeU64 (address : Word) (value : BitVec 64) :
    PCodeInterpreter → Option PCodeInterpreter :=
  write (fun memory place => memory.writeU64 place value) address

/-! ## Steps -/

/-- What an integer instruction computes from `SRC1` and `SRC2`. -/
def intOp (inst : BitVec 32) (op : Word → Word → Word) (interpreter : PCodeInterpreter) :
    Option PCodeInterpreter :=
  some (interpreter.setInt (dest inst)
    (op (interpreter.iregs (src1 inst)) (interpreter.iregs (src2 inst))))

/-- The same for an operation of the host that may be undefined. -/
def hostOp (inst : BitVec 32) (op : Word → Word → Option Word)
    (interpreter : PCodeInterpreter) : Option PCodeInterpreter := do
  let value ← op (interpreter.iregs (src1 inst)) (interpreter.iregs (src2 inst))
  some (interpreter.setInt (dest inst) value)

def singleOp (inst : BitVec 32) (op : BitVec 32 → BitVec 32 → BitVec 32)
    (interpreter : PCodeInterpreter) : Option PCodeInterpreter :=
  some (interpreter.setFloat (dest inst)
    (op (interpreter.fregs (src1 inst)) (interpreter.fregs (src2 inst))))

def doubleOp (inst : BitVec 32) (op : BitVec 64 → BitVec 64 → BitVec 64)
    (interpreter : PCodeInterpreter) : Option PCodeInterpreter :=
  some (interpreter.setDouble (dest inst)
    (op (interpreter.dregs (src1 inst)) (interpreter.dregs (src2 inst))))

def compareSingle (inst : BitVec 32) (op : BitVec 32 → BitVec 32 → Word)
    (interpreter : PCodeInterpreter) : Option PCodeInterpreter :=
  some (interpreter.setInt (dest inst)
    (op (interpreter.fregs (src1 inst)) (interpreter.fregs (src2 inst))))

def compareDouble (inst : BitVec 32) (op : BitVec 64 → BitVec 64 → Word)
    (interpreter : PCodeInterpreter) : Option PCodeInterpreter :=
  some (interpreter.setInt (dest inst)
    (op (interpreter.dregs (src1 inst)) (interpreter.dregs (src2 inst))))

/-- The switch over the 32 bit instructions. What an escape does is up to the host. -/
def step32 (floats : HostFloats)
    (hostEscape : BitVec 32 → PCodeInterpreter → Option PCodeInterpreter) (inst : BitVec 32)
    (opcode : Opcode32) (interpreter : PCodeInterpreter) : Option PCodeInterpreter :=
  let single := floats.single
  let double := floats.double
  match opcode with
  | .add => interpreter.intOp inst fun a b => a + b
  | .sub => interpreter.intOp inst fun a b => a - b
  | .addf => interpreter.singleOp inst single.add
  | .addd => interpreter.doubleOp inst double.add
  | .subf => interpreter.singleOp inst single.sub
  | .subd => interpreter.doubleOp inst double.sub
  | .mul => interpreter.intOp inst fun a b => a * b
  | .mulf => interpreter.singleOp inst single.mul
  | .muld => interpreter.doubleOp inst double.mul
  | .div =>
    if interpreter.iregs (src2 inst) = 0 then some interpreter.dumpStateAndExit
    else interpreter.hostOp inst hostDiv
  | .divu =>
    if interpreter.iregs (src2 inst) = 0 then some interpreter.dumpStateAndExit
    else interpreter.hostOp inst hostDivU
  | .divf => interpreter.singleOp inst single.div
  | .divd => interpreter.doubleOp inst double.div
  | .mod => interpreter.hostOp inst hostMod
  | .modu => interpreter.hostOp inst hostModU
  | .lsr => interpreter.hostOp inst (hostShift fun a count => a >>> count)
  | .asr => interpreter.hostOp inst (hostShift fun a count => a.sshiftRight count)
  | .lsl => interpreter.hostOp inst (hostShift fun a count => a <<< count)
  | .or => interpreter.intOp inst fun a b => a ||| b
  | .and => interpreter.intOp inst fun a b => a &&& b
  | .xor => interpreter.intOp inst fun a b => a ^^^ b
  | .not => interpreter.intOp inst fun a _ => truth (a = 0)
  | .inv => interpreter.intOp inst fun a _ => ~~~a
  | .neg => interpreter.intOp inst fun a _ => -a
  | .negf => interpreter.singleOp inst fun a _ => single.neg a
  | .negd => interpreter.doubleOp inst fun a _ => double.neg a
  | .cmpeq => interpreter.intOp inst fun a b => truth (a = b)
  | .cmpne => interpreter.intOp inst fun a b => truth (a ≠ b)
  | .cmplt => interpreter.intOp inst fun a b => truth (a.slt b)
  | .cmple => interpreter.intOp inst fun a b => truth (a.sle b)
  | .cmpgt => interpreter.intOp inst fun a b => truth (b.slt a)
  | .cmpge => interpreter.intOp inst fun a b => truth (b.sle a)
  | .cmpltu => interpreter.intOp inst fun a b => truth (a < b)
  | .cmpleu => interpreter.intOp inst fun a b => truth (a ≤ b)
  | .cmpgtu => interpreter.intOp inst fun a b => truth (b < a)
  | .cmpgeu => interpreter.intOp inst fun a b => truth (b ≤ a)
  | .cmpeqf => interpreter.compareSingle inst fun a b => truth (single.eq a b)
  | .cmpnef => interpreter.compareSingle inst fun a b => truth (!single.eq a b)
  | .cmpltf => interpreter.compareSingle inst fun a b => truth (single.lt a b)
  | .cmplef => interpreter.compareSingle inst fun a b => truth (single.le a b)
  | .cmpgtf => interpreter.compareSingle inst fun a b => truth (single.lt b a)
  | .cmpgef => interpreter.compareSingle inst fun a b => truth (single.le b a)
  | .cmpeqd => interpreter.compareDouble inst fun a b => truth (double.eq a b)
  | .cmpned => interpreter.compareDouble inst fun a b => truth (!double.eq a b)
  | .cmpltd => interpreter.compareDouble inst fun a b => truth (double.lt a b)
  | .cmpled => interpreter.compareDouble inst fun a b => truth (double.le a b)
  | .cmpgtd => interpreter.compareDouble inst fun a b => truth (double.lt b a)
  | .cmpged => interpreter.compareDouble inst fun a b => truth (double.le b a)
  | .cmp3way =>
    interpreter.intOp inst fun a b => if a.slt b then -1 else if b.slt a then 1 else 0
  | .cmp3wayu => interpreter.intOp inst fun a b => if a < b then -1 else if b < a then 1 else 0
  | .cmp3wayf => interpreter.compareSingle inst single.threeWay
  | .cmp3wayd => interpreter.compareDouble inst double.threeWay
  | .decsp => some (interpreter.moveSp (-(immediate24 inst).setWidth 64))
  | .incsp => some (interpreter.moveSp ((immediate24 inst).setWidth 64))
  | .push =>
    let pushed := interpreter.moveSp (-4)
    pushed.writeU32 (pushed.iregs spReg) ((pushed.iregs (dest inst)).setWidth 32)
  | .pushf =>
    let pushed := interpreter.moveSp (-4)
    pushed.writeU32 (pushed.iregs spReg) (pushed.fregs (dest inst))
  | .pushd =>
    let pushed := interpreter.moveSp (-8)
    pushed.writeU64 (pushed.iregs spReg) (pushed.dregs (dest inst))
  | .pushx =>
    let pushed := interpreter.moveSp (-8)
    pushed.writeU64 (pushed.iregs spReg) (pushed.iregs (dest inst))
  | .pop => do
      let value ← interpreter.readU32 (interpreter.iregs spReg)
      some ((interpreter.setInt (dest inst) (value.signExtend 64)).moveSp 4)
  | .popf => do
      let value ← interpreter.readU32 (interpreter.iregs spReg)
      some ((interpreter.setFloat (dest inst) value).moveSp 4)
  | .popd => do
      let value ← interpreter.readU64 (interpreter.iregs spReg)
      some ((interpreter.setDouble (dest inst) value).moveSp 8)
  | .popx => do
      let value ← interpreter.readU64 (interpreter.iregs spReg)
      some ((interpreter.setInt (dest inst) value).moveSp 8)
  | .mov => interpreter.intOp inst fun a _ => a
  | .movf => interpreter.singleOp inst fun a _ => a
  | .movd => interpreter.doubleOp inst fun a _ => a
  | .ret => do
      let returnAddress ← interpreter.readU64 (interpreter.iregs spReg)
      some ((interpreter.setInt pcReg returnAddress).moveSp 8)
  | .cbra => some (interpreter.advance (interpreter.iregs (dest inst) * 8))
  | .i2f =>
    some (interpreter.setFloat (dest inst) (single.ofInt (interpreter.iregs (src1 inst))))
  | .i2d =>
    some (interpreter.setDouble (dest inst) (double.ofInt (interpreter.iregs (src1 inst))))
  | .ui2f =>
    some (interpreter.setFloat (dest inst) (single.ofUInt (interpreter.iregs (src1 inst))))
  | .ui2d =>
    some (interpreter.setDouble (dest inst) (double.ofUInt (interpreter.iregs (src1 inst))))
  | .f2d =>
    some (interpreter.setDouble (dest inst) (floats.widen (interpreter.fregs (src1 inst))))
  | .d2f =>
    some (interpreter.setFloat (dest inst) (floats.narrow (interpreter.dregs (src1 inst))))
  | .f2i => do
      let value ← single.toInt (interpreter.fregs (src1 inst))
      some (interpreter.setInt (dest inst) value)
  | .d2i => do
      let value ← double.toInt (interpreter.dregs (src1 inst))
      some (interpreter.setInt (dest inst) value)
  | .f2ui => do
      let value ← single.toUInt (interpreter.fregs (src1 inst))
      some (interpreter.setInt (dest inst) value)
  | .d2ui => do
      let value ← double.toUInt (interpreter.dregs (src1 inst))
      some (interpreter.setInt (dest inst) value)
  | .rcall => do
      let pushed := interpreter.moveSp (-8)
      let called ← pushed.writeU64 (pushed.iregs spReg) (pushed.iregs pcReg)
      some (called.setInt pcReg (called.iregs (dest inst)))
  | .esc => hostEscape (immediate24 inst) interpreter

/-- `iregs[SRC1(inst)] + *pc`. -/
def operandAddress (inst : BitVec 32) (pc : Word) (interpreter : PCodeInterpreter) :
    Option Word := do
  let offset ← interpreter.readU32 pc
  some (interpreter.iregs (src1 inst) + offset.signExtend 64)

/-- The switch over the 64 bit instructions. -/
def step64 (inst : BitVec 32) (pc : Word) (opcode : Opcode64) (interpreter : PCodeInterpreter) :
    Option PCodeInterpreter :=
  match opcode with
  | .ldw => do
      let value ← interpreter.readU32 (← interpreter.operandAddress inst pc)
      some ((interpreter.setInt (dest inst) (value.signExtend 64)).advance 4)
  | .ldh => do
      let value ← interpreter.readU16 (← interpreter.operandAddress inst pc)
      some ((interpreter.setInt (dest inst) (value.signExtend 64)).advance 4)
  | .ldb => do
      let value ← interpreter.readU8 (← interpreter.operandAddress inst pc)
      some ((interpreter.setInt (dest inst) (value.signExtend 64)).advance 4)
  | .lduw | .lda => do
      let value ← interpreter.readU32 (← interpreter.operandAddress inst pc)
      some ((interpreter.setInt (dest inst) (value.setWidth 64)).advance 4)
  | .ldub => do
      let value ← interpreter.readU8 (← interpreter.operandAddress inst pc)
      some ((interpreter.setInt (dest inst) (value.setWidth 64)).advance 4)
  | .lduh => do
      let value ← interpreter.readU16 (← interpreter.operandAddress inst pc)
      some ((interpreter.setInt (dest inst) (value.setWidth 64)).advance 4)
  | .ldx => do
      let value ← interpreter.readU64 (← interpreter.operandAddress inst pc)
      some ((interpreter.setInt (dest inst) value).advance 4)
  | .ldf => do
      let value ← interpreter.readU32 (← interpreter.operandAddress inst pc)
      some ((interpreter.setFloat (dest inst) value).advance 4)
  | .ldd => do
      let value ← interpreter.readU64 (← interpreter.operandAddress inst pc)
      some ((interpreter.setDouble (dest inst) value).advance 4)
  | .stw => do
      let address ← interpreter.operandAddress inst pc
      let stored ← interpreter.writeU32 address ((interpreter.iregs (dest inst)).setWidth 32)
      some (stored.advance 4)
  | .sth => do
      let address ← interpreter.operandAddress inst pc
      let stored ← interpreter.writeU16 address ((interpreter.iregs (dest inst)).setWidth 16)
      some (stored.advance 4)
  | .stx => do
      let address ← interpreter.operandAddress inst pc
      let stored ← interpreter.writeU64 address (interpreter.iregs (dest inst))
      some (stored.advance 4)
  | .stf => do
      let address ← interpreter.operandAddress inst pc
      let stored ← interpreter.writeU32 address (interpreter.fregs (dest inst))
      some (stored.advance 4)
  | .std => do
      let address ← interpreter.operandAddress inst pc
      let stored ← interpreter.writeU64 address (interpreter.dregs (dest inst))
      some (stored.advance 4)
  | .stb => do
      let address ← interpreter.operandAddress inst pc
      let stored ← interpreter.writeU8 address ((interpreter.iregs (dest inst)).setWidth 8)
      some (stored.advance 4)
  | .movc => do
      let value ← interpreter.readU32 pc
      some ((interpreter.setInt (dest inst) (value.signExtend 64)).advance 4)
  | .movfc => do
      let value ← interpreter.readU32 pc
      some ((interpreter.setFloat (dest inst) value).advance 4)
  | .bz =>
    if interpreter.iregs (dest inst) = 0 then do
      let offset ← interpreter.readU32 pc
      some (interpreter.advance ((offset + 4).signExtend 64))
    else some (interpreter.advance 4)
  | .bnz =>
    if interpreter.iregs (dest inst) ≠ 0 then do
      let offset ← interpreter.readU32 pc
      some (interpreter.advance ((offset + 4).signExtend 64))
    else some (interpreter.advance 4)
  | .bra => do
      let offset ← interpreter.readU32 pc
      some (interpreter.advance ((offset + 4).signExtend 64))
  | .addc => do
      let value ← interpreter.readU32 pc
      some ((interpreter.setInt (dest inst)
        (interpreter.iregs (src1 inst) + value.signExtend 64)).advance 4)

/-- The switch over the 96 bit instructions. -/
def step96 (inst : BitVec 32) (pc : Word) (opcode : Opcode96) (interpreter : PCodeInterpreter) :
    Option PCodeInterpreter :=
  match opcode with
  | .movdc => do
      let value ← interpreter.readU64 pc
      some ((interpreter.setDouble (dest inst) value).advance 8)
  | .movxc => do
      let value ← interpreter.readU64 pc
      some ((interpreter.setInt (dest inst) value).advance 8)
  | .jmp => do
      let offset ← interpreter.readU64 pc
      some (interpreter.setInt pcReg (offset + interpreter.iregs pcReg + 8))
  | .call => do
      let pushed := interpreter.moveSp (-8)
      let called ← pushed.writeU64 (pushed.iregs spReg) (pushed.iregs pcReg + 8)
      let offset ← called.readU64 pc
      some (called.setInt pcReg (offset + called.iregs pcReg + 8))
  | .cjmp => do
      let offset ← interpreter.readU64 pc
      let target ← interpreter.readU64 (interpreter.iregs pcReg + 8 + offset)
      some (interpreter.setInt pcReg target)
  | .adr => do
      let offset ← interpreter.readU64 pc
      let address := offset + interpreter.iregs pcReg + 8
      some ((interpreter.setInt (dest inst) address).advance 8)

/-- `PCodeInterpreterStep`. -/
def step (floats : HostFloats) (hostEscape : BitVec 32 → PCodeInterpreter → Option PCodeInterpreter)
    (interpreter : PCodeInterpreter) : Option PCodeInterpreter := do
  let pc := interpreter.iregs pcReg
  let inst ← interpreter.readU32 pc
  let pc := pc + 4
  let fetched := interpreter.advance 4
  match decode inst with
  | .short (some opcode) => fetched.step32 floats hostEscape inst opcode
  | .medium (some opcode) => fetched.step64 inst pc opcode
  | .long (some opcode) => fetched.step96 inst pc opcode
  | .short none | .medium none | .long none => some fetched.dumpStateAndExit

end PCodeInterpreter

end DaveCC.PCode
