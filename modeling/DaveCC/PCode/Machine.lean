import Mathlib.Data.BitVec

/-!
# The p-code machine

Registers, memory and instruction words of p-code (`p_code_machine.h`), and the host
operations that its two interpreters are written with. A host operation that the host
leaves undefined for some operands has no value there.
-/

namespace DaveCC.PCode

abbrev Word := BitVec 64

/-- One of the 256 registers of a kind. -/
abbrev Register := BitVec 8

/-- `PCODE_SP_REG`. -/
def spReg : Register := 30

/-- `PCODE_PC_REG`. -/
def pcReg : Register := 32

/-- The 32 bit opcodes in the order of their numbers. -/
inductive Opcode32 where
  | add | sub | addf | addd | subf | subd | mul | mulf | muld | div | divu | divf | divd
  | mod | modu | lsr | asr | lsl | or | and | xor | not | inv | neg | negf | negd
  | cmpeq | cmpne | cmplt | cmple | cmpgt | cmpge | cmpltu | cmpleu | cmpgtu | cmpgeu
  | cmpeqf | cmpnef | cmpltf | cmplef | cmpgtf | cmpgef
  | cmpeqd | cmpned | cmpltd | cmpled | cmpgtd | cmpged
  | decsp | incsp | push | pushf | pushd | pushx | pop | popf | popd | popx
  | mov | movf | movd | ret | cbra | i2f | i2d | ui2f | ui2d | f2d | d2f
  | f2i | d2i | f2ui | d2ui | rcall | esc | cmp3way | cmp3wayu | cmp3wayf | cmp3wayd
  deriving DecidableEq, Repr

/-- The 64 bit opcodes in the order of their numbers. -/
inductive Opcode64 where
  | ldw | ldh | ldb | lduw | ldub | lduh | ldx | ldf | ldd | stw | sth | stx | stf | std
  | stb | movc | movfc | bz | bnz | bra | addc | lda
  deriving DecidableEq, Repr

/-- The 96 bit opcodes in the order of their numbers. -/
inductive Opcode96 where
  | movdc | movxc | jmp | call | cjmp | adr
  deriving DecidableEq, Repr

def opcodes32 : List Opcode32 :=
  [.add, .sub, .addf, .addd, .subf, .subd, .mul, .mulf, .muld, .div, .divu, .divf, .divd,
    .mod, .modu, .lsr, .asr, .lsl, .or, .and, .xor, .not, .inv, .neg, .negf, .negd,
    .cmpeq, .cmpne, .cmplt, .cmple, .cmpgt, .cmpge, .cmpltu, .cmpleu, .cmpgtu, .cmpgeu,
    .cmpeqf, .cmpnef, .cmpltf, .cmplef, .cmpgtf, .cmpgef,
    .cmpeqd, .cmpned, .cmpltd, .cmpled, .cmpgtd, .cmpged,
    .decsp, .incsp, .push, .pushf, .pushd, .pushx, .pop, .popf, .popd, .popx,
    .mov, .movf, .movd, .ret, .cbra, .i2f, .i2d, .ui2f, .ui2d, .f2d, .d2f,
    .f2i, .d2i, .f2ui, .d2ui, .rcall, .esc, .cmp3way, .cmp3wayu, .cmp3wayf, .cmp3wayd]

def opcodes64 : List Opcode64 :=
  [.ldw, .ldh, .ldb, .lduw, .ldub, .lduh, .ldx, .ldf, .ldd, .stw, .sth, .stx, .stf, .std,
    .stb, .movc, .movfc, .bz, .bnz, .bra, .addc, .lda]

def opcodes96 : List Opcode96 :=
  [.movdc, .movxc, .jmp, .call, .cjmp, .adr]

/-- An instruction by the size that its top bits give it; there may be no opcode of its
number. -/
inductive Instruction where
  | short (opcode : Option Opcode32)
  | medium (opcode : Option Opcode64)
  | long (opcode : Option Opcode96)
  deriving DecidableEq, Repr

/-- `(inst >> 24) & mask`, looked up by number. -/
def decode (inst : BitVec 32) : Instruction :=
  if inst &&& 0x80000000 = 0 then .short opcodes32[((inst >>> 24) &&& 0x7f).toNat]?
  else if inst &&& 0x40000000 = 0 then .medium opcodes64[((inst >>> 24) &&& 0x3f).toNat]?
  else .long opcodes96[((inst >>> 24) &&& 0x3f).toNat]?

def dest (inst : BitVec 32) : Register := (inst >>> 16).setWidth 8

def src1 (inst : BitVec 32) : Register := (inst >>> 8).setWidth 8

def src2 (inst : BitVec 32) : Register := inst.setWidth 8

/-- `inst & 0xffffff`. -/
def immediate24 (inst : BitVec 32) : BitVec 32 := inst &&& 0xffffff

abbrev Memory := Word → BitVec 8

namespace Memory

def readU16 (memory : Memory) (address : Word) : BitVec 16 :=
  memory (address + 1) ++ memory address

def readU32 (memory : Memory) (address : Word) : BitVec 32 :=
  memory.readU16 (address + 2) ++ memory.readU16 address

def readU64 (memory : Memory) (address : Word) : BitVec 64 :=
  memory.readU32 (address + 4) ++ memory.readU32 address

def writeU8 (memory : Memory) (address : Word) (value : BitVec 8) : Memory :=
  fun place => if place = address then value else memory place

def writeU16 (memory : Memory) (address : Word) (value : BitVec 16) : Memory :=
  (memory.writeU8 address (value.setWidth 8)).writeU8 (address + 1) ((value >>> 8).setWidth 8)

def writeU32 (memory : Memory) (address : Word) (value : BitVec 32) : Memory :=
  (memory.writeU16 address (value.setWidth 16)).writeU16 (address + 2) ((value >>> 16).setWidth 16)

def writeU64 (memory : Memory) (address : Word) (value : BitVec 64) : Memory :=
  (memory.writeU32 address (value.setWidth 32)).writeU32 (address + 4) ((value >>> 32).setWidth 32)

end Memory

/-- The host's operations on a floating type, on the bits of its values. A conversion to
an integer has no value out of range. -/
structure FloatOps (width : Nat) where
  add : BitVec width → BitVec width → BitVec width
  sub : BitVec width → BitVec width → BitVec width
  mul : BitVec width → BitVec width → BitVec width
  div : BitVec width → BitVec width → BitVec width
  neg : BitVec width → BitVec width
  eq : BitVec width → BitVec width → Bool
  lt : BitVec width → BitVec width → Bool
  le : BitVec width → BitVec width → Bool
  ofInt : Word → BitVec width
  ofUInt : Word → BitVec width
  toInt : BitVec width → Option Word
  toUInt : BitVec width → Option Word

/-- `float` and `double` of the host. -/
structure HostFloats where
  single : FloatOps 32
  double : FloatOps 64
  widen : BitVec 32 → BitVec 64
  narrow : BitVec 64 → BitVec 32

/-- The value of a C comparison. -/
def truth (value : Bool) : Word := if value then 1 else 0

/-- `a < b ? -1 : a > b ? 1 : a == b ? 0 : 2`. -/
def FloatOps.threeWay {width : Nat} (ops : FloatOps width) (a b : BitVec width) : Word :=
  if ops.lt a b then -1 else if ops.lt b a then 1 else if ops.eq a b then 0 else 2

/-- `/` and `%` on `int64_t` are undefined for the most negative value and `-1`. -/
def divides (a b : Word) : Prop :=
  b ≠ 0 ∧ ¬(a = BitVec.intMin 64 ∧ b = -1)

instance (a b : Word) : Decidable (divides a b) := inferInstanceAs (Decidable (_ ∧ _))

def hostDiv (a b : Word) : Option Word := if divides a b then some (a.sdiv b) else none

def hostMod (a b : Word) : Option Word := if divides a b then some (a.srem b) else none

def hostDivU (a b : Word) : Option Word := if b ≠ 0 then some (a / b) else none

def hostModU (a b : Word) : Option Word := if b ≠ 0 then some (a % b) else none

/-- A shift is defined for the counts of the width. -/
def hostShift (shift : Word → Nat → Word) (a count : Word) : Option Word :=
  if count.toNat < 64 then some (shift a count.toNat) else none

structure Machine where
  iregs : Register → Word
  fregs : Register → BitVec 32
  dregs : Register → BitVec 64
  memory : Memory

namespace Machine

def setInt (register : Register) (value : Word) (machine : Machine) : Machine :=
  { machine with iregs := fun r => if r = register then value else machine.iregs r }

def setFloat (register : Register) (value : BitVec 32) (machine : Machine) : Machine :=
  { machine with fregs := fun r => if r = register then value else machine.fregs r }

def setDouble (register : Register) (value : BitVec 64) (machine : Machine) : Machine :=
  { machine with dregs := fun r => if r = register then value else machine.dregs r }

def setMemory (memory : Memory) (machine : Machine) : Machine :=
  { machine with memory := memory }

end Machine

end DaveCC.PCode
