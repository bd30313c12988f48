import DaveCC.Backend.IR

/-!
# Constant folding in constant propagation

The folds of `PropagateConstants` in `constprop.c`. They compute on raw 64-bit
payloads. The host's additions, multiplications and left shifts wrap; its
division of the smallest integer by minus one and its shifts by counts outside
the word have no defined result.
-/

namespace DaveCC.Optimization.ConstantPropagation

open DaveCC.Backend

/-- The outcome of folding one instruction: it stays, the host computation is
undefined, or a constant is installed for it. -/
inductive Fold where
  | unfolded
  | undefined
  | constant (value : BitVec 64)
  deriving DecidableEq, Repr

def allConstantInputs (nodes : NodeId → IRNode) (inst : IRNode) : Bool :=
  inst.inputs.all fun input => (nodes input).opcode.isIntConst

/-- The bits `FoldZeroExtension` and `FoldSignExtension` keep of a source of
another size than the result. -/
def extensionBits (source inst : IRNode) : Option Nat :=
  match source.type, inst.type with
  | some sourceType, some type =>
    if sourceType.size = type.size then none
    else some ((if type.size < sourceType.size then type.size
      else sourceType.size) * 8)
  | _, _ => none

def foldZeroExtension (source inst : IRNode) (value operand : BitVec 64) : BitVec 64 :=
  match extensionBits source inst with
  -- Same-width nodes are explicit bit masks.
  | none => value &&& operand
  | some bits =>
    value &&& (if 64 ≤ bits then BitVec.allOnes 64 else (1#64 <<< bits) - 1)

/-- `FoldSignExtension`, which declines counts outside the word. -/
def foldSignExtension (source inst : IRNode) (value operand : BitVec 64) : Fold :=
  match extensionBits source inst with
  | none =>
    if operand.toInt < 0 || 64 ≤ operand.toInt then .unfolded
    else .constant ((value <<< operand.toNat).sshiftRight operand.toNat)
  | some bits =>
    if 64 ≤ bits then .constant value
    else
      let mask : BitVec 64 := (1#64 <<< bits) - 1
      let extended := value &&& mask
      .constant (if extended &&& (1#64 <<< (bits - 1)) != 0 then extended ||| ~~~mask
        else extended)

/-- A host shift, defined for counts inside the word. -/
def hostShift (shift : BitVec 64 → Nat → BitVec 64) (lhs rhs : BitVec 64) : Fold :=
  if rhs.toInt < 0 || 64 ≤ rhs.toInt then .undefined
  else .constant (shift lhs rhs.toNat)

/-- `FOLD_DIV`, which declines a zero divisor. -/
def foldDiv (divide : BitVec 64 → BitVec 64 → BitVec 64) (lhs rhs : BitVec 64) : Fold :=
  if rhs = 0 then .unfolded
  else if lhs = BitVec.intMin 64 ∧ rhs = BitVec.allOnes 64 then .undefined
  else .constant (divide lhs rhs)

/-- The constant of a host truth value. -/
def foldTruth (condition : Bool) : Fold :=
  .constant (if condition then 1 else 0)

/-- The folding cases of `PropagateConstants`, on the payloads of the operands. -/
def foldOperation (source inst : IRNode) (lhs rhs : BitVec 64) : Fold :=
  match inst.opcode with
  | .addi => .constant (lhs + rhs)
  | .subi => .constant (lhs - rhs)
  | .muli => .constant (lhs * rhs)
  | .divi => foldDiv BitVec.sdiv lhs rhs
  | .modi => foldDiv BitVec.srem lhs rhs
  | .xori => .constant (lhs ^^^ rhs)
  | .andi => .constant (lhs &&& rhs)
  | .ori => .constant (lhs ||| rhs)
  | .lsri => hostShift BitVec.ushiftRight lhs rhs
  | .asri => hostShift BitVec.sshiftRight lhs rhs
  | .lsli => hostShift BitVec.shiftLeft lhs rhs
  | .cmpeqi => foldTruth (lhs == rhs)
  | .cmpnei => foldTruth (lhs != rhs)
  | .cmplti => foldTruth (lhs.slt rhs)
  | .cmplei => foldTruth (lhs.sle rhs)
  | .cmpgti => foldTruth (rhs.slt lhs)
  | .cmpgei => foldTruth (rhs.sle lhs)
  | .negi => .constant (-lhs)
  | .onescomp => .constant (~~~lhs)
  | .noti => foldTruth (lhs == 0)
  | .zeroextendi => .constant (foldZeroExtension source inst lhs rhs)
  | .signextendi => foldSignExtension source inst lhs rhs
  | _ => .unfolded

/-- What `PropagateConstants` folds an instruction to when every input is an
integer constant. -/
def foldInstruction (nodes : NodeId → IRNode) (inst : IRNode) : Fold :=
  if allConstantInputs nodes inst then
    match inst.inputs with
    | [] => .unfolded
    | left :: rest =>
      foldOperation (nodes left) inst (nodes left).ivalue
        (rest.head?.elim 0 fun right => (nodes right).ivalue)
  else .unfolded

end DaveCC.Optimization.ConstantPropagation
