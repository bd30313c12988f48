import DaveCC.Loop.While
import DaveCC.Optimization.IntegerTerms

/-!
# Strength reduction

`ReduceNodeStrength` of `optimizer.c` and what it calls. An instruction stays, is
replaced by a term, or is edited in place. Additions of payloads wrap, as on every
host. A loop that does not end has no result.
-/

namespace DaveCC.Optimization.StrengthReduction

open DaveCC.Arith DaveCC.Backend DaveCC.Loop

variable [Compiler]

/-- What becomes of an instruction. An instruction edited in place keeps its type. -/
inductive Reduction where
  | unchanged
  | replacedBy (value : Term)
  | becomes (opcode : IROpcode) (left : Term) (right : Option Term)
  deriving DecidableEq, Repr

/-- A type of the integer constants that the predicates accept. -/
def isIntegralConstant (node : IRNode) : Bool :=
  node.opcode.isConst && node.type.any TypeRecord.isIntegral

def isIntConstantWithValue (node : IRNode) (value : BitVec 64) : Bool :=
  isIntegralConstant node && node.ivalue == value

/-- The low `bits` bits of a word. -/
def lowMask (bits : Nat) : BitVec 64 :=
  (1#64 <<< bits) - 1

omit [Compiler] in
theorem lowMask_toNat {bits : ℕ} (narrow : bits < 64) : (lowMask bits).toNat = 2 ^ bits - 1 := by
  have power : (1#64 <<< bits).toNat = 2 ^ bits := by
    rw [BitVec.toNat_shiftLeft, BitVec.toNat_ofNat, Nat.one_mod, Nat.one_shiftLeft,
      Nat.mod_eq_of_lt (Nat.pow_lt_pow_right (by omega) narrow)]
  have positive : 0 < 2 ^ bits := Nat.two_pow_pos bits
  rw [lowMask, BitVec.toNat_sub_of_le, power]
  · rfl
  · rw [BitVec.le_def, power]
    exact positive

omit [Compiler] in
/-- The low bits of a word are its remainder. -/
theorem toNat_and_lowMask (value : BitVec 64) {bits : ℕ} (narrow : bits < 64) :
    (value &&& lowMask bits).toNat = value.toNat % 2 ^ bits := by
  rw [BitVec.toNat_and, lowMask_toNat narrow, Nat.and_two_pow_sub_one_eq_mod]

def isIntConstantPowerOf2 (node : IRNode) (maxbits : Nat) : Bool :=
  isIntegralConstant node && (0 < maxbits && maxbits ≤ 64) &&
    !(!node.type.any TypeRecord.isUnsigned && node.ivalue.sle 0) &&
    !(maxbits < 64 && node.ivalue &&& ~~~(lowMask maxbits) != 0) &&
    (let value := if maxbits < 64 then node.ivalue &&& lowMask maxbits else node.ivalue
     value != 0 && value &&& (value - 1) == 0)

/-- `LogBase2`, which does not return on zero. -/
def logBase2 (value : BitVec 64) : Option Nat :=
  (runWhile (fun state : Nat × BitVec 64 => state.2 &&& 1 == 0)
    (fun state => some (state.1 + 1, state.2 >>> (1 : Nat))) 64 (0, value)).map Prod.fst

def bitMask (value : BitVec 64) : BitVec 64 :=
  value - 1

def wrapToType (type : TypeRecord) (value : BitVec 64) : BitVec 64 :=
  let bits := type.size * 8
  if bits = 0 ∨ 64 ≤ bits then value
  else
    let bitsVal := value &&& lowMask bits
    if !type.isUnsigned && bitsVal &&& (1#64 <<< (bits - 1)) != 0 then
      bitsVal ||| ~~~(lowMask bits)
    else bitsVal

def isIntAllOnes (node : IRNode) : Bool :=
  match node.type with
  | none => false
  | some type =>
    let bits := type.size * 8
    node.opcode.isIntConst && type.isIntegral && (0 < bits && bits ≤ 64) &&
      (if bits < 64 then node.ivalue &&& lowMask bits == lowMask bits
        else node.ivalue == BitVec.allOnes 64)

/-- `ConstOperandIndex`, with the constant operand before the other one. -/
def constOperand (gen : Generator) (inputs : List NodeId) : Option (NodeId × NodeId) :=
  match inputs with
  | [left, right] =>
    if (gen.nodes left).opcode.isIntConst && !(gen.nodes right).opcode.isIntConst then
      some (left, right)
    else if (gen.nodes right).opcode.isIntConst && !(gen.nodes left).opcode.isIntConst then
      some (right, left)
    else none
  | _ => none

/-- `FoldNestedAdd`, for any decision of `TypeEqual`. -/
def foldNestedAdd (typeEqual : TypeRecord → TypeRecord → Bool) (gen : Generator)
    (node : IRNode) : Reduction :=
  match constOperand gen node.inputs with
  | none => .unchanged
  | some (outer, innerId) =>
    let inner := gen.nodes innerId
    match inner.type, node.type with
    | some innerType, some type =>
      if inner.opcode != .addi || inner.dest.isSome || !typeEqual innerType type then
        .unchanged
      else
        match constOperand gen inner.inputs with
        | none => .unchanged
        | some (innerConst, base) =>
          let sum := wrapToType type ((gen.nodes outer).ivalue + (gen.nodes innerConst).ivalue)
          if sum = 0 then .replacedBy (.node base)
          else .becomes .addi (.node base) (some (.constant type sum))
    | _, _ => .unchanged

/-- The variables of the loop in `UnsignedMagic32`. -/
structure UnsignedSearch where
  p : Nat
  q1 : BitVec 32
  r1 : BitVec 32
  q2 : BitVec 32
  r2 : BitVec 32
  add : Bool
  deriving DecidableEq, Repr

structure UnsignedDivMagic where
  magic : BitVec 32
  shift : Nat
  add : Bool
  deriving DecidableEq, Repr

/-- The largest dividend that leaves the remainder `d - 1`. -/
def unsignedNc (d : BitVec 32) : BitVec 32 :=
  0xffffffff#32 - (0#32 - d) % d

def UnsignedSearch.start (d : BitVec 32) : UnsignedSearch :=
  let nc := unsignedNc d
  { p := 31
    q1 := 0x80000000#32 / nc
    r1 := 0x80000000#32 - 0x80000000#32 / nc * nc
    q2 := 0x7fffffff#32 / d
    r2 := 0x7fffffff#32 - 0x7fffffff#32 / d * d
    add := false }

/-- The body of the loop in `UnsignedMagic32`. -/
def UnsignedSearch.step (d : BitVec 32) (search : UnsignedSearch) : UnsignedSearch :=
  let nc := unsignedNc d
  let high :=
    if nc - search.r1 ≤ search.r1 then (2#32 * search.q1 + 1#32, 2#32 * search.r1 - nc)
    else (2#32 * search.q1, 2#32 * search.r1)
  if d - search.r2 ≤ search.r2 + 1#32 then
    { p := search.p + 1, q1 := high.1, r1 := high.2
      q2 := 2#32 * search.q2 + 1#32
      r2 := 2#32 * search.r2 + 1#32 - d
      add := search.add || 0x7fffffff#32 ≤ search.q2 }
  else
    { p := search.p + 1, q1 := high.1, r1 := high.2
      q2 := 2#32 * search.q2
      r2 := 2#32 * search.r2 + 1#32
      add := search.add || 0x80000000#32 ≤ search.q2 }

/-- The condition under which the loop in `UnsignedMagic32` goes on. -/
def UnsignedSearch.continues (d : BitVec 32) (search : UnsignedSearch) : Bool :=
  search.p < 64 &&
    (search.q1 < d - 1#32 - search.r2 || (search.q1 == d - 1#32 - search.r2 && search.r1 == 0#32))

def unsignedMagic32 (fuel : Nat) (d : BitVec 32) : Option UnsignedDivMagic :=
  (runWhile (UnsignedSearch.continues d) (fun search => some (search.step d)) fuel
    ((UnsignedSearch.start d).step d)).map fun search =>
      { magic := search.q2 + 1#32, shift := search.p - 32, add := search.add }

/-- The variables of the loop in `SignedMagic32`. -/
structure SignedSearch where
  p : Nat
  q1 : BitVec 32
  r1 : BitVec 32
  q2 : BitVec 32
  r2 : BitVec 32
  delta : BitVec 32
  deriving DecidableEq, Repr

structure SignedDivMagic where
  magic : BitVec 32
  shift : Nat
  deriving DecidableEq, Repr

/-- The largest positive dividend that leaves the remainder `d - 1`. -/
def signedAnc (d : BitVec 32) : BitVec 32 :=
  let t := 0x80000000#32 + d >>> (31 : Nat)
  t - 1#32 - t % d

def SignedSearch.start (d : BitVec 32) : SignedSearch :=
  let anc := signedAnc d
  { p := 31
    q1 := 0x80000000#32 / anc
    r1 := 0x80000000#32 - 0x80000000#32 / anc * anc
    q2 := 0x80000000#32 / d
    r2 := 0x80000000#32 - 0x80000000#32 / d * d
    delta := 0 }

/-- The body of the loop in `SignedMagic32`. -/
def SignedSearch.step (d : BitVec 32) (search : SignedSearch) : SignedSearch :=
  let anc := signedAnc d
  let first :=
    if anc ≤ 2#32 * search.r1 then (2#32 * search.q1 + 1#32, 2#32 * search.r1 - anc)
    else (2#32 * search.q1, 2#32 * search.r1)
  let second :=
    if d ≤ 2#32 * search.r2 then (2#32 * search.q2 + 1#32, 2#32 * search.r2 - d)
    else (2#32 * search.q2, 2#32 * search.r2)
  { p := search.p + 1
    q1 := first.1
    r1 := first.2
    q2 := second.1
    r2 := second.2
    delta := d - second.2 }

/-- The condition under which the loop in `SignedMagic32` goes on. -/
def SignedSearch.continues (search : SignedSearch) : Bool :=
  search.q1 < search.delta || (search.q1 == search.delta && search.r1 == 0#32)

def signedMagic32 (fuel : Nat) (d : BitVec 32) : Option SignedDivMagic :=
  (runWhile SignedSearch.continues (fun search => some (search.step d)) fuel
    ((SignedSearch.start d).step d)).map fun search =>
      { magic := search.q2 + 1#32, shift := search.p - 32 }

/-! ## Division by a constant -/

/-- The `long long` types of `NewTypeRecordWithSize`, at the size of the target. -/
def wideType (unsigned : Bool) (longLongSize : Nat) : TypeRecord where
  declarator := .primitive
  type := if unsigned then kTypeLongLong ||| kTypeUnsigned else kTypeLongLong
  size := longLongSize

/-- The size of a term's type. -/
def termSize (gen : Generator) (value : Term) : Nat :=
  (value.typeIn gen).elim 0 fun type => type.size

def extendBefore (gen : Generator) (value : Term) (wide : TypeRecord) (isSigned : Bool) : Term :=
  let bitDiff : ℤ := (wide.size - termSize gen value) * 8
  if bitDiff = 0 then value
  else .operation (if isSigned then .signextendi else .zeroextendi) wide value
    (.constant wide (BitVec.ofInt 64 bitDiff))

def narrowBefore (gen : Generator) (value : Term) (narrow : TypeRecord) (isSigned : Bool) : Term :=
  if (value.typeIn gen).isSome && termSize gen value ≤ narrow.size then value
  else
    let bitDiff : ℤ := (narrow.size - termSize gen value) * 8
    .operation (if isSigned then .signextendi else .zeroextendi) narrow value
      (.constant narrow (BitVec.ofInt 64 bitDiff))

/-- The quotient that `FoldConstantDivision` emits for an unsigned type. -/
def unsignedQuotient (wide : TypeRecord) (magic : UnsignedDivMagic) (n64 : Term) : Term :=
  let prod := Term.operation .muli wide n64 (.constant wide (magic.magic.setWidth 64))
  if !magic.add then
    .operation .lsri wide prod (.constant wide (BitVec.ofNat 64 (32 + magic.shift)))
  else
    let hi := Term.operation .lsri wide prod (.constant wide 32#64)
    let sum := Term.operation .addi wide hi n64
    if magic.shift = 0 then sum
    else .operation .lsri wide sum (.constant wide (BitVec.ofNat 64 magic.shift))

/-- The quotient that `FoldConstantDivision` emits for a signed type. -/
def signedQuotient (wide : TypeRecord) (magic : SignedDivMagic) (n64 : Term) : Term :=
  let prod := Term.operation .muli wide n64 (.constant wide (magic.magic.signExtend 64))
  let hi := Term.operation .asri wide prod (.constant wide 32#64)
  let hi := if magic.magic.slt 0 then Term.operation .addi wide hi n64 else hi
  let hi :=
    if 0 < magic.shift then
      Term.operation .asri wide hi (.constant wide (BitVec.ofNat 64 magic.shift))
    else hi
  let signbit := Term.operation .lsri wide n64 (.constant wide 63#64)
  .operation .addi wide hi signbit

/-- `FoldConstantDivision`. The loops for the magic numbers run for at most `fuel`
iterations. -/
def foldConstantDivision (fuel longLongSize : Nat) (gen : Generator) (node : IRNode)
    (dividend divisor : NodeId) : Option Reduction :=
  match node.type with
  | none => some .unchanged
  | some type =>
    if !type.isIntegral || type.size = 0 || 4 < type.size then some .unchanged
    else if (gen.nodes dividend).type.isNone || !(gen.nodes divisor).opcode.isIntConst then
      some .unchanged
    else if longLongSize ≠ 8 then some .unchanged
    else if type.isUnsigned then
      let d := (gen.nodes divisor).ivalue &&& lowMask (type.size * 8)
      if d ≤ 1 then some .unchanged
      else do
        let magic ← unsignedMagic32 fuel (d.setWidth 32)
        let wide := wideType true longLongSize
        let n64 := extendBefore gen (.node dividend) wide false
        some (.replacedBy (narrowBefore gen (unsignedQuotient wide magic n64) type false))
    else
      let d := (gen.nodes divisor).ivalue
      if d.sle 1 || (0x7fffffff : BitVec 64).slt d then some .unchanged
      else do
        let magic ← signedMagic32 fuel (d.setWidth 32)
        let wide := wideType false longLongSize
        let n64 := extendBefore gen (.node dividend) wide true
        some (.replacedBy (narrowBefore gen (signedQuotient wide magic n64) type true))

/-- The case of `addi`. -/
def reduceAdd (typeEqual : TypeRecord → TypeRecord → Bool) (gen : Generator) (node : IRNode)
    (left right : NodeId) : Reduction :=
  if isIntConstantWithValue (gen.nodes left) 0 then .replacedBy (.node right)
  else if isIntConstantWithValue (gen.nodes right) 0 then .replacedBy (.node left)
  else foldNestedAdd typeEqual gen node

/-- The case of `subi`. -/
def reduceSub (gen : Generator) (left right : NodeId) : Reduction :=
  if isIntConstantWithValue (gen.nodes right) 0 then .replacedBy (.node left)
  else if isIntConstantWithValue (gen.nodes left) 0 then .becomes .negi (.node right) none
  else .unchanged

/-- The operation that replaces one with a power of two: the other operand shifted
by the constant's logarithm, which is a constant of the same type. -/
def shiftByLog (gen : Generator) (opcode : IROpcode) (operand power : NodeId) :
    Option Reduction := do
  let type ← (gen.nodes power).type
  let log2 ← logBase2 (gen.nodes power).ivalue
  some (.becomes opcode (.node operand) (some (.constant type (BitVec.ofNat 64 log2))))

/-- The case of `muli`. -/
def reduceMul (gen : Generator) (node : IRNode) (left right : NodeId) : Option Reduction :=
  if isIntConstantWithValue (gen.nodes left) 0 then some (.replacedBy (.node left))
  else if isIntConstantWithValue (gen.nodes right) 0 then some (.replacedBy (.node right))
  else if isIntConstantWithValue (gen.nodes left) 1 then some (.replacedBy (.node right))
  else if isIntConstantWithValue (gen.nodes right) 1 then some (.replacedBy (.node left))
  else do
    let type ← node.type
    let maxbits := type.size * 8
    if isIntConstantPowerOf2 (gen.nodes left) maxbits then shiftByLog gen .lsli right left
    else if isIntConstantPowerOf2 (gen.nodes right) maxbits then shiftByLog gen .lsli left right
    else some .unchanged

/-- The case of `divi`. -/
def reduceDiv (fuel longLongSize : Nat) (gen : Generator) (node : IRNode)
    (left right : NodeId) : Option Reduction :=
  if isIntConstantWithValue (gen.nodes right) 1 then some (.replacedBy (.node left))
  else if isIntConstantWithValue (gen.nodes left) 0 then some (.replacedBy (.node left))
  else do
    let type ← node.type
    if type.isUnsigned && isIntConstantPowerOf2 (gen.nodes right) (type.size * 8) then
      shiftByLog gen (if type.isUnsigned then .lsri else .asri) left right
    else foldConstantDivision fuel longLongSize gen node left right

/-- The case of `modi`. -/
def reduceMod (gen : Generator) (node : IRNode) (left right : NodeId) : Option Reduction :=
  if isIntConstantWithValue (gen.nodes left) 0 then some (.replacedBy (.node left))
  else do
    let type ← node.type
    if type.isUnsigned && isIntConstantPowerOf2 (gen.nodes right) (type.size * 8) then do
      let constantType ← (gen.nodes right).type
      some (.becomes .andi (.node left)
        (some (.constant constantType (bitMask (gen.nodes right).ivalue))))
    else some .unchanged

/-- The case of `andi`. -/
def reduceAnd (gen : Generator) (left right : NodeId) : Reduction :=
  if isIntConstantWithValue (gen.nodes left) 0 || isIntConstantWithValue (gen.nodes right) 0 then
    .replacedBy (.node (if isIntConstantWithValue (gen.nodes left) 0 then left else right))
  else if isIntAllOnes (gen.nodes left) then .replacedBy (.node right)
  else if isIntAllOnes (gen.nodes right) then .replacedBy (.node left)
  else .unchanged

/-- The case of `ori`. -/
def reduceOr (gen : Generator) (left right : NodeId) : Reduction :=
  if isIntConstantWithValue (gen.nodes left) 0 then .replacedBy (.node right)
  else if isIntConstantWithValue (gen.nodes right) 0 then .replacedBy (.node left)
  else if isIntAllOnes (gen.nodes left) || isIntAllOnes (gen.nodes right) then
    .replacedBy (.node (if isIntAllOnes (gen.nodes left) then left else right))
  else .unchanged

/-- The case of `xori`. -/
def reduceXor (gen : Generator) (left right : NodeId) : Reduction :=
  if isIntConstantWithValue (gen.nodes left) 0 then .replacedBy (.node right)
  else if isIntConstantWithValue (gen.nodes right) 0 then .replacedBy (.node left)
  else .unchanged

/-- The cases of `cmpeqi` and `cmpnei`. -/
def reduceCompare (node : IRNode) (left right : NodeId) (outcome : BitVec 64) :
    Option Reduction :=
  if left = right then node.type.map fun type => .replacedBy (.constant type outcome)
  else some .unchanged

/-- `ReduceNodeStrength`. A result that goes to a merge temporary stays, as does an
instruction that reads a value from before a checkpoint. -/
def reduceNodeStrength (typeEqual : TypeRecord → TypeRecord → Bool) (fuel longLongSize : Nat)
    (gen : Generator) (id : NodeId) : Option Reduction :=
  let node := gen.nodes id
  if node.dest.isSome then some .unchanged
  else if node.inputs.any fun input => irCheckpointBetween gen input id then some .unchanged
  else
    match node.inputs with
    | [left, right] =>
      match node.opcode with
      | .addi => some (reduceAdd typeEqual gen node left right)
      | .subi => some (reduceSub gen left right)
      | .muli => reduceMul gen node left right
      | .divi => reduceDiv fuel longLongSize gen node left right
      | .modi => reduceMod gen node left right
      | .andi => some (reduceAnd gen left right)
      | .ori => some (reduceOr gen left right)
      | .xori => some (reduceXor gen left right)
      | .cmpeqi => reduceCompare node left right 1
      | .cmpnei => reduceCompare node left right 0
      | _ => some .unchanged
    | _ => some .unchanged

end DaveCC.Optimization.StrengthReduction
