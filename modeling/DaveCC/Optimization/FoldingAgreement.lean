import DaveCC.Optimization.ConstantPropagation
import DaveCC.Optimization.SccpEvaluator

/-!
# Agreement of the two constant folders

`sccp.c` folds with the types of the node and its operands at hand, `constprop.c`
on raw 64-bit payloads. This module compares both with the fixed-width meaning
of the operation and determines exactly on which operands they keep it.
-/

namespace DaveCC.Optimization.FoldingAgreement

open DaveCC.Arith DaveCC.Backend IROpcode ConstantPropagation Sccp IntFormat
open Sccp (SCCPContext SCCPValue WellTyped EvaluatorSafe FitsSigned evaluateOperation
  isUnaryInteger)
open ConstantPropagation (Fold foldInstruction foldOperation)

variable [Compiler]

/-- An integer type of one, two, four or eight bytes other than a `_BitInt`. -/
structure StandardType where
  record : TypeRecord
  integral : record.isIntegral = true
  notBitInt : record.isBitInt = false
  size_mem : record.size = 1 ∨ record.size = 2 ∨ record.size = 4 ∨ record.size = 8

namespace StandardType

/-- The format of a standard type. -/
def format (type : StandardType) : IntFormat where
  bits := type.record.size * 8
  isUnsigned := type.record.isUnsigned
  positive := by have := type.size_mem; omega
  fits := by have := type.size_mem; omega

theorem bits_mem (type : StandardType) :
    type.format.bits = 8 ∨ type.format.bits = 16 ∨ type.format.bits = 32 ∨
      type.format.bits = 64 := by
  have := type.size_mem
  simp only [format]
  omega

theorem intFormat?_record (type : StandardType) : type.record.intFormat? = some type.format := by
  have sizes := type.size_mem
  have bits : type.record.valueBits = type.record.size * 8 := by
    simp [TypeRecord.valueBits, type.notBitInt]
  rw [TypeRecord.intFormat?, dif_pos ⟨type.integral, by omega, by omega⟩]
  simp only [bits]
  rfl

theorem wordFormat_record (type : StandardType) : wordFormat (some type.record) = type.format := by
  rw [wordFormat, Option.bind_some, type.intFormat?_record, Option.getD_some]

omit [Compiler] in
theorem wellFormed (type : StandardType) : type.record.WellFormed := by
  intro bitInt
  rw [type.notBitInt] at bitInt
  cases bitInt

end StandardType

/-- The integer opcodes that both passes fold. -/
def foldedByBoth : IROpcode → Bool
  | .addi | .subi | .muli | .divi | .modi | .andi | .ori | .xori | .lsli | .lsri | .asri
  | .zeroextendi | .signextendi | .cmpeqi | .cmpnei | .cmplti | .cmplei | .cmpgti
  | .cmpgei | .negi | .onescomp | .noti => true
  | _ => false

/-- An integer instruction that both folders handle: its operands are lattice
constants `a` and `b` in canonical form, and an operand that is a constant node
has that constant as its payload. -/
structure FoldableInstruction (context : SCCPContext) where
  inst : IRNode
  result : StandardType
  left : StandardType
  right : StandardType
  leftId : NodeId
  rightId : NodeId
  a : BitVec 64
  b : BitVec 64
  folded : foldedByBoth inst.opcode = true
  inputs_eq : inst.inputs = if isUnaryInteger inst.opcode then [leftId] else [leftId, rightId]
  type_eq : inst.type = some result.record
  leftType : (context.gen.nodes leftId).type = some left.record
  rightType : (context.gen.nodes rightId).type = some right.record
  wellTyped : WellTyped inst.opcode result.format left.format right.format
  leftCanonical : left.format.Canonical a
  rightCanonical : right.format.Canonical b
  leftPlain : (context.gen.nodes leftId).opcode.isVariable = false
  rightPlain : (context.gen.nodes rightId).opcode.isVariable = false
  leftValue : context.valueOf leftId = .constant a
  rightValue : context.valueOf rightId = .constant b
  leftPayload : (context.gen.nodes leftId).opcode.isIntConst = true →
    (context.gen.nodes leftId).ivalue = a
  rightPayload : (context.gen.nodes rightId).opcode.isIntConst = true →
    (context.gen.nodes rightId).ivalue = b

namespace FoldableInstruction

variable {context : SCCPContext} (node : FoldableInstruction context)

/-- The value of the operation at its width and signedness. -/
def value : Option (BitVec 64) :=
  node.inst.opcode.integerValue node.result.format node.left.format node.a node.b

/-- SCCP's constant, if any, is the value, and the constant that constant
propagation installs, if any, denotes it at the result type. -/
def Agrees : Prop :=
  (∀ constant, context.evaluateIntegerExpression node.inst = .constant constant →
    node.value = some constant) ∧
  (foldInstruction context.gen.nodes node.inst ≠ .undefined ∧
    ∀ constant, foldInstruction context.gen.nodes node.inst = .constant constant →
      ∃ value, node.value = some value ∧
        node.result.format.read constant = node.result.format.read value)

/-- Operands on which a signed 64-bit quotient is the type's quotient. -/
def quotientSafe (a b : BitVec 64) (isUnsigned : Bool) : Prop :=
  if isUnsigned then
    a.msb = false ∧ b.msb = false ∨
    a.msb = false ∧ b.msb = true ∧ a.toNat + b.toNat < 2 ^ 64 ∨ b = 1 ∨ a = b
  else ¬(a = BitVec.intMin 64 ∧ b = BitVec.allOnes 64)

/-- Operands on which a signed 64-bit remainder is the type's remainder. -/
def remainderSafe (a b : BitVec 64) (isUnsigned : Bool) : Prop :=
  if isUnsigned then
    a.msb = false ∧ b.msb = false ∨
    a.msb = false ∧ b.msb = true ∧ a.toNat + b.toNat < 2 ^ 64 ∨
    a.msb = true ∧ b.msb = false ∧ b.toNat ∣ a.toNat ∧ b.toNat ∣ 2 ^ 64 ∨ a = b
  else ¬(a = BitVec.intMin 64 ∧ b = BitVec.allOnes 64)

/-- The operands on which a raw 64-bit fold keeps the meaning. Division and order
are signed whatever the type, and every shift count is taken. -/
def PayloadSafe (opcode : IROpcode) (result left : IntFormat) (a b : BitVec 64) : Prop :=
  match opcode with
  | .divi => b = 0 ∨ quotientSafe a b result.isUnsigned
  | .modi => b = 0 ∨ remainderSafe a b result.isUnsigned
  | .cmplti | .cmplei | .cmpgti | .cmpgei => left.isUnsigned = true → a.msb = b.msb
  | .lsli => countBelow result b
  | .lsri =>
    countBelow result b ∧ (b = 0 ∨ result.bits = 64 ∨ a.msb = false)
  | .asri => countBelow result b ∧ (b = 0 ∨ a.msb = (result.read a).msb)
  | opcode => EvaluatorSafe opcode result left a b

/-- The exact condition under which the two folders keep the meaning. -/
def FoldSafe : Prop :=
  EvaluatorSafe node.inst.opcode node.result.format node.left.format node.a node.b ∧
  (allConstantInputs context.gen.nodes node.inst = true →
    PayloadSafe node.inst.opcode node.result.format node.left.format node.a node.b)

theorem resultFormat : wordFormat node.inst.type = node.result.format := by
  rw [node.type_eq, node.result.wordFormat_record]

theorem leftFormat : wordFormat (context.gen.nodes node.leftId).type = node.left.format := by
  rw [node.leftType, node.left.wordFormat_record]

theorem fillsStorage (type : StandardType) : Sccp.FillsStorage (some type.record) :=
  ⟨type.record, rfl, congrArg IntFormat.bits type.wordFormat_record, type.size_mem⟩

theorem typed : Sccp.Typed context.gen node.inst (context.gen.nodes node.leftId)
    node.right.format where
  wellFormed := by
    rw [node.type_eq]
    intro type member
    cases member
    exact node.result.wellFormed
  wellTyped := by
    rw [node.resultFormat, node.leftFormat]
    exact node.wellTyped
  leftInput := by
    rw [node.inputs_eq]
    split
    · exact ⟨_, _, rfl, rfl⟩
    · exact ⟨_, _, rfl, rfl⟩
  sign := by
    intro _
    refine ⟨node.left.record, node.leftType, ?_⟩
    rw [node.leftFormat]
    rfl
  width := by
    intro _
    rw [node.resultFormat, operationWidth, node.leftType, node.type_eq]
    have sizes := node.result.size_mem
    simp only [Option.filter, node.left.notBitInt, Bool.false_eq_true, if_false]
    rw [if_pos (by omega)]
    rfl
  storage := by
    intro _
    rw [node.type_eq, node.leftType]
    exact ⟨fillsStorage _, fillsStorage _⟩

theorem supported : isSupportedIntegerExpression node.inst.opcode = true := by
  have folded := node.folded
  cases opcode : node.inst.opcode <;> rw [opcode] at folded <;>
    first
    | rfl
    | cases folded

theorem wide : 1 < node.result.format.bits := by
  have bits := node.result.bits_mem
  omega

theorem evaluateIntegerExpression_eq :
    context.evaluateIntegerExpression node.inst =
      evaluateOperation context.gen node.inst (context.gen.nodes node.leftId) node.a
        (if isUnaryInteger node.inst.opcode then 0 else node.b) := by
  have leftNormal : normalizeIntegerValue node.a (context.gen.nodes node.leftId).type =
      node.a := by
    rw [normalizeIntegerValue_eq, node.leftFormat]
    exact node.leftCanonical
  have rightNormal : normalizeIntegerValue node.b
      (context.gen.nodes node.rightId).type = node.b := by
    rw [normalizeIntegerValue_eq, node.rightType, node.right.wordFormat_record]
    exact node.rightCanonical
  have untyped : normalizeIntegerValue 0 none = 0 := rfl
  rw [SCCPContext.evaluateIntegerExpression, node.inputs_eq]
  cases unary : isUnaryInteger node.inst.opcode with
  | true =>
    simp only [if_true, Option.elim_none, Option.bind_none, List.any_cons, List.any_nil,
      Bool.or_false, node.leftPlain, node.leftValue, leftNormal, untyped,
      Bool.false_eq_true, if_false]
  | false =>
    simp [node.leftPlain, node.rightPlain, node.leftValue, node.rightValue, leftNormal, rightNormal]

/-- An extension between different sizes keeps fewer bits than a word has. -/
private theorem extensionBits_eq :
    Sccp.extensionBits node.inst (context.gen.nodes node.leftId) = none ∨
      ∃ bits < 64, Sccp.extensionBits node.inst (context.gen.nodes node.leftId) =
        some bits := by
  have leftSizes := node.left.size_mem
  have resultSizes := node.result.size_mem
  simp only [Sccp.extensionBits, node.leftType, node.type_eq]
  split_ifs with same
  · exact .inl rfl
  · exact .inr ⟨_, by omega, rfl⟩
  · exact .inr ⟨_, by omega, rfl⟩

/-- A constant of the evaluator is in canonical form already. -/
theorem evaluateOperation_canonical {b constant : BitVec 64}
    (equal : evaluateOperation context.gen node.inst (context.gen.nodes node.leftId) node.a b =
      .constant constant) : node.result.format.Canonical constant := by
  have storage : Sccp.FillsStorage node.inst.type := node.type_eq ▸ fillsStorage node.result
  have masks : node.inst.opcode ≠ .mova ∧ node.inst.opcode ≠ .adda ∧
      node.inst.opcode ≠ .suba := by
    have folded := node.folded
    refine ⟨?_, ?_, ?_⟩ <;> intro opcode <;> rw [opcode] at folded <;> cases folded
  rw [← node.resultFormat]
  exact Sccp.evaluateOperation_canonical storage masks equal

/-- Unary operations ignore their right operand. -/
theorem value_eq :
    node.value = node.inst.opcode.integerValue node.result.format node.left.format node.a
      (if isUnaryInteger node.inst.opcode then 0 else node.b) := by
  cases unary : isUnaryInteger node.inst.opcode with
  | false => rfl
  | true =>
    rw [value]
    cases opcode : node.inst.opcode <;> rw [opcode] at unary <;>
      first
      | rfl
      | cases unary

theorem sccp_agrees_iff :
    (∀ constant, context.evaluateIntegerExpression node.inst = .constant constant →
      node.value = some constant) ↔
    EvaluatorSafe node.inst.opcode node.result.format node.left.format node.a node.b := by
  have rightCanonical : node.right.format.Canonical
      (if isUnaryInteger node.inst.opcode then 0 else node.b) := by
    split
    · exact canonical_zero
    · exact node.rightCanonical
  have leftCanonical := node.leftCanonical
  have safe : EvaluatorSafe node.inst.opcode node.result.format node.left.format node.a
        (if isUnaryInteger node.inst.opcode then 0 else node.b) ↔
      EvaluatorSafe node.inst.opcode node.result.format node.left.format node.a node.b := by
    cases unary : isUnaryInteger node.inst.opcode with
    | false => exact Iff.rfl
    | true =>
      cases opcode : node.inst.opcode <;> rw [opcode] at unary <;>
        first
        | exact Iff.rfl
        | cases unary
  rw [← node.leftFormat] at leftCanonical
  have denotes := evaluateOperation_denotes_iff node.typed leftCanonical rightCanonical
    node.supported
  rw [node.resultFormat, node.leftFormat, ← node.value_eq, safe] at denotes
  rw [← denotes, node.evaluateIntegerExpression_eq, Sccp.Denotes, node.resultFormat]
  refine forall_congr' fun constant => forall_congr' fun equal => ?_
  rw [canonicalize, node.evaluateOperation_canonical equal]

/-! ## The folds of constant propagation -/

/-- The constant that a fold installs, if any, denotes the meaning. -/
def Installs (format : IntFormat) (fold : Fold) (meaning : Option (BitVec 64)) : Prop :=
  fold ≠ .undefined ∧ ∀ constant, fold = .constant constant →
    ∃ value, meaning = some value ∧ format.read constant = format.read value

omit [Compiler] in
theorem installs_constant {format : IntFormat} {word : BitVec 64} {meaning : Option (BitVec 64)}
    (canonical : ∀ value, meaning = some value → format.Canonical value) :
    Installs format (.constant word) meaning ↔
      meaning = some (format.canonicalize word) := by
  constructor
  · rintro ⟨-, installed⟩
    obtain ⟨value, equal, readEq⟩ := installed word rfl
    rw [equal, canonicalize, readEq]
    exact congrArg some (canonical value equal).symm
  · intro equal
    refine ⟨Fold.noConfusion, fun constant same => ?_⟩
    cases same
    exact ⟨_, equal, (format.read_canonicalize word).symm⟩

omit [Compiler] in
@[simp] theorem installs_unfolded (format : IntFormat) (meaning : Option (BitVec 64)) :
    Installs format .unfolded meaning :=
  ⟨nofun, nofun⟩

omit [Compiler] in
@[simp] theorem not_installs_undefined (format : IntFormat) (meaning : Option (BitVec 64)) :
    ¬Installs format .undefined meaning :=
  fun installs => installs.1 rfl

omit [Compiler] in
theorem installs_truth {format : IntFormat} (wide : 1 < format.bits) (condition meaning : Bool) :
    Installs format (foldTruth condition) (IROpcode.ofTruth meaning) ↔
      condition = meaning := by
  rw [foldTruth, installs_constant, canonicalize,
    canonical_truth wide, IROpcode.ofTruth, Option.some.injEq]
  · cases condition <;> cases meaning <;> decide
  · intro value equal
    cases equal
    exact canonical_truth wide meaning

theorem foldInstruction_eq :
    foldInstruction context.gen.nodes node.inst =
      if allConstantInputs context.gen.nodes node.inst then
        foldOperation (context.gen.nodes node.leftId) node.inst node.a
          (if isUnaryInteger node.inst.opcode then 0 else node.b)
      else .unfolded := by
  rw [foldInstruction]
  by_cases constants :
      allConstantInputs context.gen.nodes node.inst = true
  · rw [if_pos constants, if_pos constants]
    rw [allConstantInputs, node.inputs_eq] at constants
    rw [node.inputs_eq]
    cases unary : isUnaryInteger node.inst.opcode with
    | true =>
      have leftConstant : (context.gen.nodes node.leftId).opcode.isIntConst = true := by
        simpa [unary] using constants
      simp only [if_true, List.head?_nil, Option.elim_none, node.leftPayload leftConstant]
    | false =>
      obtain ⟨leftConstant, rightConstant⟩ :
          (context.gen.nodes node.leftId).opcode.isIntConst = true ∧
            (context.gen.nodes node.rightId).opcode.isIntConst = true := by
        simpa [unary] using constants
      simp [node.leftPayload leftConstant, node.rightPayload rightConstant]
  · rw [if_neg constants, if_neg constants]

section Folds

variable {b : BitVec 64}

/-- A fold of the word that the evaluator brings into range is right when the
evaluator is. -/
private theorem installs_iff_of_typed {word : BitVec 64}
    (rightCanonical : node.right.format.Canonical b)
    (foldEq : foldOperation (context.gen.nodes node.leftId) node.inst node.a b = .constant word)
      (evaluateEq : evaluateOperation context.gen node.inst (context.gen.nodes node.leftId) node.a b
      = typedConstantValue node.inst word) :
    Installs node.result.format (foldOperation (context.gen.nodes node.leftId) node.inst node.a b)
        (node.inst.opcode.integerValue node.result.format node.left.format node.a b) ↔
      EvaluatorSafe node.inst.opcode node.result.format node.left.format node.a b := by
  have leftCanonical := node.leftCanonical
  rw [← node.leftFormat] at leftCanonical
  have denotes := evaluateOperation_denotes_iff node.typed leftCanonical rightCanonical
    node.supported
  rw [evaluateEq, denotes_typed_iff _ node.typed.wellFormed, node.resultFormat,
    node.leftFormat] at denotes
  rw [foldEq, installs_constant, denotes]
  exact fun value equal => integerValue_canonical node.wide equal

omit [Compiler] in
/-- A signed fold of a division is right for a signed type unless the host traps,
and for an unsigned type exactly when it agrees with the unsigned division. -/
private theorem foldDiv_installs_iff {format : IntFormat}
    {signed unsigned : BitVec 64 → BitVec 64 → BitVec 64} {a : BitVec 64} {agree : Prop}
    (zero : b ≠ 0) (leftCanonical : format.Canonical a) (rightCanonical : format.Canonical b)
    (agreeIff : signed a b = unsigned a b ↔ agree)
    (nonneg : a.msb = false → b.msb = false → agree)
    (defined : agree → ¬(a = BitVec.intMin 64 ∧ b = BitVec.allOnes 64)) :
    Installs format (ConstantPropagation.foldDiv signed a b)
        (some (format.canonicalize (if format.isUnsigned then unsigned a b else signed a b))) ↔
      if format.isUnsigned then agree
      else ¬(a = BitVec.intMin 64 ∧ b = BitVec.allOnes 64) := by
  have canonical (word value : BitVec 64) (equal : some (format.canonicalize word) =
      some value) : format.Canonical value := by
    cases equal
    exact format.canonical_canonicalize word
  rw [ConstantPropagation.foldDiv, if_neg zero]
  by_cases traps : a = BitVec.intMin 64 ∧ b = BitVec.allOnes 64
  · rw [if_pos traps]
    refine iff_of_false (not_installs_undefined _ _) ?_
    split
    · exact fun agrees => defined agrees traps
    · exact not_not.mpr traps
  · rw [if_neg traps, installs_constant (canonical _), Option.some.injEq]
    cases sign : format.isUnsigned with
    | false => exact iff_of_true rfl traps
    | true =>
      simp only [if_true]
      rw [← agreeIff]
      constructor
      · intro equal
        by_cases wide : format.bits = 64
        · rw [canonicalize_of_wide wide, canonicalize_of_wide wide] at equal
          exact equal.symm
        · have narrow : format.bits < 64 := lt_of_le_of_ne format.fits wide
          exact agreeIff.mpr (nonneg (leftCanonical.msb_eq_false sign narrow)
            (rightCanonical.msb_eq_false sign narrow))
      · intro equal
        rw [equal]

omit [Compiler] in
private theorem quotient_installs_iff {format : IntFormat} {a : BitVec 64} (zero : b ≠ 0)
    (leftCanonical : format.Canonical a) (rightCanonical : format.Canonical b) :
    Installs format (ConstantPropagation.foldDiv BitVec.sdiv a b)
        (some (format.extend (if format.isUnsigned then format.read a / format.read b
          else (format.read a).sdiv (format.read b)))) ↔
      quotientSafe a b format.isUnsigned := by
  have meaning : format.extend (if format.isUnsigned then format.read a / format.read b
        else (format.read a).sdiv (format.read b)) =
      format.canonicalize (if format.isUnsigned then a / b else a.sdiv b) := by
    cases sign : format.isUnsigned with
    | true => exact congrArg _ (read_udiv leftCanonical rightCanonical sign).symm
    | false => exact congrArg _ (read_sdiv leftCanonical rightCanonical sign).symm
  rw [meaning, quotientSafe]
  refine foldDiv_installs_iff zero leftCanonical rightCanonical (sdiv_eq_udiv_iff zero)
    (fun leftSign rightSign => .inl ⟨leftSign, rightSign⟩) ?_
  rintro agrees ⟨rfl, rfl⟩
  revert agrees
  decide

omit [Compiler] in
private theorem remainder_installs_iff {format : IntFormat} {a : BitVec 64} (zero : b ≠ 0)
    (leftCanonical : format.Canonical a) (rightCanonical : format.Canonical b) :
    Installs format (ConstantPropagation.foldDiv BitVec.srem a b)
        (some (format.extend (if format.isUnsigned then format.read a % format.read b
          else (format.read a).srem (format.read b)))) ↔
      remainderSafe a b format.isUnsigned := by
  have meaning : format.extend (if format.isUnsigned then format.read a % format.read b
        else (format.read a).srem (format.read b)) =
      format.canonicalize (if format.isUnsigned then a % b else a.srem b) := by
    cases sign : format.isUnsigned with
    | true => exact congrArg _ (read_umod leftCanonical rightCanonical sign).symm
    | false => exact congrArg _ (read_srem leftCanonical rightCanonical sign).symm
  rw [meaning, remainderSafe]
  refine foldDiv_installs_iff zero leftCanonical rightCanonical (srem_eq_umod_iff zero)
    (fun leftSign rightSign => .inl ⟨leftSign, rightSign⟩) ?_
  rintro agrees ⟨rfl, rfl⟩
  revert agrees
  decide

omit [Compiler] in
/-- A host shift is right when the count is below the width and the word's shift
is the format's. -/
private theorem hostShift_installs_iff {format : IntFormat} (wide : 1 < format.bits)
    {shift : BitVec 64 → Nat → BitVec 64} {a : BitVec 64} {shifted : BitVec format.bits} :
    Installs format (hostShift shift a b)
        (if countBelow format b then some (format.extend shifted) else none) ↔
      countBelow format b ∧ format.read (shift a b.toNat) = shifted := by
  have fits := format.fits
  rw [hostShift]
  by_cases below : countBelow format b
  · have inWord : ¬(decide (b.toInt < 0) || decide (64 ≤ b.toInt)) = true := by
      obtain ⟨nonneg, upper⟩ := below
      simp only [Bool.or_eq_true, decide_eq_true_eq]
      omega
    rw [if_neg inWord, if_pos below, installs_constant]
    · simp only [below, true_and, Option.some.injEq, canonicalize, extend_inj]
      exact eq_comm
    · intro value equal
      cases equal
      exact format.canonical_extend shifted
  · rw [if_neg below]
    refine iff_of_false ?_ fun both => below both.1
    split
    · exact not_installs_undefined _ _
    · intro installs
      obtain ⟨value, impossible, -⟩ := installs.2 _ rfl
      cases impossible

omit [Compiler] in
private theorem toNat_eq_zero_iff : b.toNat = 0 ↔ b = 0 := by
  rw [← BitVec.toNat_inj]
  rfl

/-- A fold that constant propagation declines with the evaluator is right when the
evaluator is. -/
private theorem installs_iff_of_declined (rightCanonical : node.right.format.Canonical b)
    (foldEq : foldOperation (context.gen.nodes node.leftId) node.inst node.a b = .unfolded)
    (evaluateEq : evaluateOperation context.gen node.inst (context.gen.nodes node.leftId)
      node.a b = .overdefined) :
    Installs node.result.format (foldOperation (context.gen.nodes node.leftId) node.inst node.a b)
        (node.inst.opcode.integerValue node.result.format node.left.format node.a b) ↔
      EvaluatorSafe node.inst.opcode node.result.format node.left.format node.a b := by
  have leftCanonical := node.leftCanonical
  rw [← node.leftFormat] at leftCanonical
  have denotes := evaluateOperation_denotes_iff node.typed leftCanonical rightCanonical
    node.supported
  rw [evaluateEq, node.resultFormat, node.leftFormat] at denotes
  rw [foldEq]
  exact iff_of_true (installs_unfolded _ _) (denotes.mp (denotes_overdefined _ _))

private theorem extension_installs_iff (rightCanonical : node.right.format.Canonical b)
    (opcode : node.inst.opcode = .zeroextendi ∨ node.inst.opcode = .signextendi) :
    Installs node.result.format (foldOperation (context.gen.nodes node.leftId) node.inst node.a b)
        (node.inst.opcode.integerValue node.result.format node.left.format node.a b) ↔
      EvaluatorSafe node.inst.opcode node.result.format node.left.format node.a b := by
  have sameBits : ConstantPropagation.extensionBits (context.gen.nodes node.leftId) node.inst =
      Sccp.extensionBits node.inst (context.gen.nodes node.leftId) := rfl
  rcases opcode with opcode | opcode
  · refine node.installs_iff_of_typed rightCanonical
      (show _ = Fold.constant (ConstantPropagation.foldZeroExtension
        (context.gen.nodes node.leftId) node.inst node.a b) from ?_) ?_
    · rw [foldOperation, opcode]
    · simp only [evaluateOperation, opcode, ConstantPropagation.foldZeroExtension, sameBits]
      cases Sccp.extensionBits node.inst (context.gen.nodes node.leftId) <;> rfl
  · rcases node.extensionBits_eq with same | ⟨bits, narrow, different⟩
    · by_cases outside : (decide (b.toInt < 0) || decide (64 ≤ b.toInt)) = true
      · refine node.installs_iff_of_declined rightCanonical ?_ ?_
        · simp [foldOperation, opcode, ConstantPropagation.foldSignExtension, sameBits, same, outside]
        · simp [evaluateOperation, opcode, same, outside]
      · refine node.installs_iff_of_typed rightCanonical
          (show _ = Fold.constant ((node.a <<< b.toNat).sshiftRight b.toNat) from ?_) ?_
        · simp [foldOperation, opcode, ConstantPropagation.foldSignExtension, sameBits, same, outside]
        · simp [evaluateOperation, opcode, same, outside]
    · refine node.installs_iff_of_typed rightCanonical
        (show _ = Fold.constant (Sccp.maskInteger bits false node.a) from ?_) ?_
      · simp only [foldOperation, opcode, ConstantPropagation.foldSignExtension, sameBits,
          different, Nat.not_le.mpr narrow, if_false, Sccp.maskInteger, Bool.not_false,
          Bool.true_and]
      · simp only [evaluateOperation, opcode, different, Nat.not_le.mpr narrow, if_false]

private theorem comparison_installs_iff (wellTyped : node.left.format = node.right.format)
    (rightCanonical : node.right.format.Canonical b)
    (opcode : node.inst.opcode ∈ [.cmplti, .cmplei, .cmpgti, .cmpgei]) :
    Installs node.result.format (foldOperation (context.gen.nodes node.leftId) node.inst node.a b)
        (node.inst.opcode.integerValue node.result.format node.left.format node.a b) ↔
      (node.left.format.isUnsigned = true → node.a.msb = b.msb) := by
  have leftCanonical := node.leftCanonical
  rw [← wellTyped] at rightCanonical
  simp only [List.mem_cons, List.not_mem_nil, or_false] at opcode
  rcases opcode with opcode | opcode | opcode | opcode <;>
    simp only [foldOperation, integerValue, opcode, installs_truth node.wide]
  · rw [← leftCanonical.lt_eq rightCanonical]
    cases node.left.format.isUnsigned <;> simp [slt_eq_ult_iff]
  · rw [← leftCanonical.le_eq rightCanonical]
    cases node.left.format.isUnsigned <;> simp [sle_eq_ule_iff]
  · rw [← rightCanonical.lt_eq leftCanonical]
    cases node.left.format.isUnsigned <;> simp [slt_eq_ult_iff, eq_comm]
  · rw [← rightCanonical.le_eq leftCanonical]
    cases node.left.format.isUnsigned <;> simp [sle_eq_ule_iff, eq_comm]

/-- Constant propagation keeps the meaning exactly on the payload-safe operands. -/
theorem foldOperation_installs_iff (rightCanonical : node.right.format.Canonical b) :
    Installs node.result.format (foldOperation (context.gen.nodes node.leftId) node.inst node.a b)
        (node.inst.opcode.integerValue node.result.format node.left.format node.a b) ↔
      PayloadSafe node.inst.opcode node.result.format node.left.format node.a b := by
  have leftCanonical := node.leftCanonical
  have wellTyped := node.wellTyped
  have folded := node.folded
  have typedIff {word : BitVec 64} := @installs_iff_of_typed _ _ node b word rightCanonical
  cases opcode : node.inst.opcode
  case addi | subi | muli | andi | ori | xori | onescomp =>
    simp only [← opcode]
    rw [typedIff (by rw [foldOperation, opcode]) (by rw [evaluateOperation, opcode])]
    simp [PayloadSafe, EvaluatorSafe, opcode]
  case negi =>
    simp only [← opcode]
    rw [typedIff (by rw [foldOperation, opcode]) (by rw [evaluateOperation, opcode, ← zero_sub])]
    simp [PayloadSafe, EvaluatorSafe, opcode]
  case zeroextendi | signextendi =>
    simp only [← opcode]
    rw [node.extension_installs_iff rightCanonical (by simp [opcode])]
    simp [PayloadSafe, opcode]
  case cmplti | cmplei | cmpgti | cmpgei =>
    rw [opcode, WellTyped] at wellTyped
    simp only [← opcode]
    rw [node.comparison_installs_iff wellTyped.1 rightCanonical (by simp [opcode])]
    simp [PayloadSafe, opcode]
  case cmpeqi | cmpnei =>
    rw [opcode, WellTyped] at wellTyped
    rw [← wellTyped.1] at rightCanonical
    simp only [foldOperation, integerValue, opcode, installs_truth node.wide,
      PayloadSafe, EvaluatorSafe, bne, leftCanonical.beq_eq rightCanonical]
  case noti =>
    simp only [foldOperation, integerValue, opcode, installs_truth node.wide,
      PayloadSafe, EvaluatorSafe, iff_true]
    rw [Bool.eq_iff_iff, beq_iff_eq, beq_iff_eq, leftCanonical.read_eq_zero_iff]
  case divi | modi =>
    rw [opcode, WellTyped] at wellTyped
    rw [wellTyped.1] at leftCanonical
    rw [wellTyped.2] at rightCanonical
    simp only [foldOperation, integerValue, opcode, PayloadSafe, rightCanonical.read_eq_zero_iff]
    by_cases zero : b = 0
    · simp [zero, ConstantPropagation.foldDiv]
    · simp only [zero, if_false, false_or]
      first
      | exact quotient_installs_iff zero leftCanonical rightCanonical
      | exact remainder_installs_iff zero leftCanonical rightCanonical
  case lsli =>
    simp only [foldOperation, integerValue, opcode, PayloadSafe, hostShift_installs_iff node.wide]
    exact and_iff_left (read_shiftLeft _ _)
  case lsri =>
    rw [opcode, WellTyped] at wellTyped
    rw [wellTyped] at leftCanonical
    simp only [foldOperation, integerValue, opcode, PayloadSafe, hostShift_installs_iff node.wide]
    refine and_congr_right fun below => ?_
    rw [← toNat_eq_zero_iff]
    exact read_ushiftRight_iff leftCanonical (countBelow_toNat below)
  case asri =>
    rw [opcode, WellTyped] at wellTyped
    rw [wellTyped] at leftCanonical
    simp only [foldOperation, integerValue, opcode, PayloadSafe, hostShift_installs_iff node.wide]
    rw [← toNat_eq_zero_iff]
    exact and_congr_right fun _ => read_sshiftRight_iff leftCanonical
  all_goals
    rw [opcode] at folded
    cases folded

end Folds

/-- Unary operations are safe whatever their right operand. -/
private theorem payloadSafe_right_iff :
    PayloadSafe node.inst.opcode node.result.format node.left.format node.a
        (if isUnaryInteger node.inst.opcode then 0 else node.b) ↔
      PayloadSafe node.inst.opcode node.result.format node.left.format node.a node.b := by
  cases unary : isUnaryInteger node.inst.opcode with
  | false => exact Iff.rfl
  | true =>
    cases opcode : node.inst.opcode <;> rw [opcode] at unary <;>
      first
      | exact Iff.rfl
      | cases unary

/-- The two folders keep the fixed-width meaning of a typed integer operation
exactly when its operands are fold-safe. -/
theorem agrees_iff : node.Agrees ↔ node.FoldSafe := by
  have rightCanonical : node.right.format.Canonical
      (if isUnaryInteger node.inst.opcode then 0 else node.b) := by
    split
    · exact canonical_zero
    · exact node.rightCanonical
  rw [Agrees, FoldSafe, node.sccp_agrees_iff]
  refine and_congr_right fun _ => ?_
  change Installs node.result.format (foldInstruction context.gen.nodes node.inst) node.value ↔ _
  rw [node.foldInstruction_eq]
  by_cases constants :
      allConstantInputs context.gen.nodes node.inst = true
  · rw [if_pos constants, node.value_eq, node.foldOperation_installs_iff rightCanonical,
      node.payloadSafe_right_iff]
    exact ⟨fun safe _ => safe, fun safe => safe constants⟩
  · rw [if_neg constants]
    exact iff_of_true (installs_unfolded _ _) fun impossible => absurd impossible constants

end FoldableInstruction

def unsignedLong : StandardType where
  record := { declarator := .primitive, type := kTypeLong ||| kTypeUnsigned, size := 8 }
  integral := by decide
  notBitInt := by decide
  size_mem := by decide

/-- The nodes of `18446744073709551614ul / 2ul`. -/
def quotientContext : SCCPContext where
  gen :=
    { nodes := fun id =>
        { opcode := .const64, type := some unsignedLong.record
          ivalue := if id = 0 then 18446744073709551614 else 2 }
      basicBlocks := []
      entryBlock := 0 }
  values := fun id => .constant (if id = 0 then 18446744073709551614 else 2)
  valueCount := 2

/-- The instruction `18446744073709551614ul / 2ul`. -/
def unsignedQuotient : FoldableInstruction quotientContext where
  inst := { opcode := .divi, inputs := [0, 1], type := some unsignedLong.record }
  result := unsignedLong
  left := unsignedLong
  right := unsignedLong
  leftId := 0
  rightId := 1
  a := 18446744073709551614
  b := 2
  folded := rfl
  inputs_eq := rfl
  type_eq := rfl
  leftType := rfl
  rightType := rfl
  wellTyped := ⟨rfl, rfl⟩
  leftCanonical := canonical_of_bits_eq rfl _
  rightCanonical := canonical_of_bits_eq rfl _
  leftPlain := rfl
  rightPlain := rfl
  leftValue := rfl
  rightValue := rfl
  leftPayload := fun _ => rfl
  rightPayload := fun _ => rfl

omit [Compiler] in
/-- Constant propagation divides the word as a signed one. -/
theorem not_all_agree :
    ¬∀ [Compiler] (context : SCCPContext) (node : FoldableInstruction context),
      node.Agrees := by
  intro agree
  let _ : Compiler := ⟨true⟩
  obtain ⟨-, -, installed⟩ := agree quotientContext unsignedQuotient
  obtain ⟨value, valueEq, readEq⟩ := installed (BitVec.allOnes 64) (by decide)
  have quotient : unsignedQuotient.value = some 9223372036854775807 := by decide
  rw [quotient, Option.some.injEq] at valueEq
  subst valueEq
  exact absurd readEq (by decide)

end DaveCC.Optimization.FoldingAgreement
