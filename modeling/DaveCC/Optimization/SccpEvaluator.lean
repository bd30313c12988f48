import DaveCC.Arith.Signedness
import DaveCC.Backend.IntegerSemantics
import DaveCC.Optimization.Sccp

/-!
# The integer evaluator of constant propagation

`EvaluateIntegerExpression` computes on 64-bit words and brings the result into
the range of its type. This module determines for every opcode on which operands
that is the fixed-width meaning of the operation.
-/

namespace DaveCC.Optimization.Sccp

open DaveCC.Arith DaveCC.Backend IntFormat IROpcode

private theorem getLsbD_lowMask {bits : Nat} (narrow : bits < 64) (index : Nat) :
    ((1#64 <<< bits) - 1).getLsbD index = decide (index < bits) := by
  have value : ((1#64 <<< bits) - 1).toNat = 2 ^ bits - 1 := by
    have power : 2 ^ bits < 2 ^ 64 := Nat.pow_lt_pow_right (by omega) narrow
    have positive : 0 < 2 ^ bits := Nat.two_pow_pos bits
    have one : BitVec.toNat (1 : BitVec 64) = 1 := rfl
    rw [BitVec.toNat_sub, BitVec.toNat_shiftLeft, Nat.shiftLeft_eq, BitVec.toNat_ofNat, one]
    omega
  rw [BitVec.getLsbD, value, Nat.testBit_two_pow_sub_one]

/-- Testing a word against a power of two tests one bit. -/
private theorem and_shiftLeft_ne_zero (word : BitVec 64) {index : Nat} (inside : index < 64) :
    (word &&& (1#64 <<< index) != 0) = word.getLsbD index := by
  rw [← BitVec.twoPow_eq, BitVec.and_twoPow]
  cases word.getLsbD index with
  | false => rfl
  | true =>
    rw [if_pos rfl, bne_iff_ne, Ne, ← BitVec.toNat_inj, BitVec.toNat_twoPow_of_lt inside]
    exact (Nat.two_pow_pos index).ne'

theorem maskInteger_eq_canonicalize (format : IntFormat) (narrow : format.bits < 64)
    (word : BitVec 64) :
    maskInteger format.bits format.isUnsigned word = format.canonicalize word := by
  have positive := format.positive
  have lowBits (index : Nat) :
      (word &&& ((1#64 <<< format.bits) - 1)).getLsbD index =
        (decide (index < format.bits) && word.getLsbD index) := by
    rw [BitVec.getLsbD_and, getLsbD_lowMask narrow, Bool.and_comm]
  apply BitVec.eq_of_getLsbD_eq
  intro index bound
  simp only [maskInteger, and_shiftLeft_ne_zero _ (show format.bits - 1 < 64 by omega),
    canonicalize, IntFormat.extend, lowBits]
  cases format.isUnsigned with
  | true =>
    simp only [Bool.not_true, Bool.false_and, Bool.false_eq_true, if_false, if_true,
      BitVec.getLsbD_setWidth, getLsbD_read, lowBits, bound, decide_true, Bool.true_and]
  | false =>
    have top : (format.read word).msb = word.getLsbD (format.bits - 1) := by
      rw [BitVec.msb_eq_getLsbD_last, getLsbD_read]
      simp [positive]
    simp only [Bool.not_false, Bool.true_and, Bool.false_eq_true, if_false,
      BitVec.getLsbD_signExtend, getLsbD_read, top, bound, decide_true,
      show format.bits - 1 < format.bits by omega]
    cases sign : word.getLsbD (format.bits - 1) with
    | false =>
      simp only [Bool.false_eq_true, if_false, lowBits]
      by_cases low : index < format.bits <;> simp [low]
    | true =>
      simp only [if_true, BitVec.getLsbD_or, BitVec.getLsbD_not, lowBits,
        getLsbD_lowMask narrow, bound]
      by_cases low : index < format.bits <;> simp [low]

theorem canonicalize_of_wide {format : IntFormat} (wide : format.bits = 64)
    (word : BitVec 64) : format.canonicalize word = word :=
  canonical_of_bits_eq wide word

variable [Compiler]

theorem normalizeIntegerValue_eq (word : BitVec 64) (type : Option TypeRecord) :
    normalizeIntegerValue word type = (wordFormat type).canonicalize word := by
  cases type with
  | none => exact (canonicalize_of_wide rfl word).symm
  | some record =>
    have bits : (if record.isBitInt = true then record.bitWidth else record.size * 8) =
        record.valueBits := rfl
    simp only [normalizeIntegerValue, bits, wordFormat, Option.bind_some, TypeRecord.intFormat?]
    split_ifs with skipped valid valid
    · have wide : record.valueBits = 64 := by
        simp only [valid.1, Bool.not_true, Bool.false_or, Bool.or_eq_true, beq_iff_eq,
          decide_eq_true_eq] at skipped
        omega
      exact (canonicalize_of_wide wide word).symm
    · exact (canonicalize_of_wide rfl word).symm
    · simp only [Bool.or_eq_true, decide_eq_true_eq, not_or, not_le] at skipped
      exact maskInteger_eq_canonicalize ⟨record.valueBits, record.isUnsigned, _, _⟩ skipped.2 word
    · simp only [Bool.or_eq_true, Bool.not_eq_true', beq_iff_eq, decide_eq_true_eq,
        not_or, Bool.not_eq_false, not_le] at skipped
      exact absurd ⟨skipped.1.1, by omega, by omega⟩ valid

/-- A constant of the evaluator stands for the word in its type's range. -/
def Denotes (inst : IRNode) (value : SCCPValue) (meaning : Option (BitVec 64)) : Prop :=
  ∀ constant, value = .constant constant →
    meaning = some ((wordFormat inst.type).canonicalize constant)

@[simp] theorem denotes_overdefined (inst : IRNode) (meaning : Option (BitVec 64)) :
    Denotes inst .overdefined meaning := by
  intro constant impossible
  cases impossible

@[simp] theorem denotes_constant (inst : IRNode) (word : BitVec 64) (meaning : Option (BitVec 64)) :
    Denotes inst (.constant word) meaning ↔
      meaning = some ((wordFormat inst.type).canonicalize word) := by
  constructor
  · intro denotes
    exact denotes word rfl
  · intro equal constant same
    cases same
    exact equal

section

variable (inst : IRNode) (wellFormed : ∀ type ∈ inst.type, type.WellFormed) (word : BitVec 64)

include inst wellFormed word

/-- Reading the word that masking to a type's storage leaves loses nothing. -/
theorem typedConstantValue_eq :
    ∃ constant, typedConstantValue inst word = .constant constant ∧
      (wordFormat inst.type).read constant = (wordFormat inst.type).read word := by
  cases typeEq : inst.type with
  | none => exact ⟨word, by simp [typedConstantValue, typeEq], rfl⟩
  | some record =>
    simp only [typedConstantValue, typeEq]
    split_ifs with skipped
    · exact ⟨word, rfl, rfl⟩
    · simp only [Bool.or_eq_true, Bool.not_eq_true', beq_iff_eq, decide_eq_true_eq,
        not_or, Bool.not_eq_false, not_le] at skipped
      obtain ⟨⟨integral, nonempty⟩, small⟩ := skipped
      refine ⟨_, rfl, ?_⟩
      let storage : IntFormat :=
        { bits := record.size * 8, isUnsigned := record.isUnsigned
          positive := by omega, fits := by omega }
      have narrower : (wordFormat (some record)).bits ≤ storage.bits := by
        have formed := wellFormed record (by simp [typeEq])
        have bits : record.valueBits ≤ record.size * 8 ∧ 0 < record.valueBits := by
          unfold TypeRecord.valueBits
          split
          · exact ⟨(formed ‹_›).2.1, (formed ‹_›).1⟩
          · omega
        rw [wordFormat, Option.bind_some, TypeRecord.intFormat?,
          dif_pos ⟨integral, by omega, by omega⟩]
        exact bits.1
      have masked := maskInteger_eq_canonicalize storage (by simp only [storage]; omega) word
      have stored := congrArg (·.setWidth (wordFormat (some record)).bits)
        (storage.read_canonicalize word)
      simp only [IntFormat.read, BitVec.setWidth_setWidth_of_le _ narrower] at stored
      rw [show record.size * 8 = storage.bits from rfl,
        show record.isUnsigned = storage.isUnsigned from rfl, masked]
      exact stored

theorem denotes_typed (value : BitVec (wordFormat inst.type).bits) :
    Denotes inst (typedConstantValue inst word) (some ((wordFormat inst.type).extend value)) ↔
      (wordFormat inst.type).read word = value := by
  obtain ⟨constant, typedEq, readEq⟩ := typedConstantValue_eq inst wellFormed word
  rw [typedEq, denotes_constant, Option.some.injEq, canonicalize, extend_inj, readEq, eq_comm]

theorem denotes_typed_iff (meaning : Option (BitVec 64)) :
    Denotes inst (typedConstantValue inst word) meaning ↔
      meaning = some ((wordFormat inst.type).canonicalize word) := by
  obtain ⟨constant, typedEq, readEq⟩ := typedConstantValue_eq inst wellFormed word
  rw [typedEq, denotes_constant, canonicalize, canonicalize, readEq]

theorem denotes_typed_none : ¬Denotes inst (typedConstantValue inst word) none := by
  obtain ⟨constant, typedEq, -⟩ := typedConstantValue_eq inst wellFormed word
  simp [typedEq]

end

/-- The typing the front end gives integer operations. -/
def WellTyped (opcode : IROpcode) (result left right : IntFormat) : Prop :=
  match opcode with
  | .divi | .modi => left = result ∧ right = result
  | .lsli | .lsri | .asri => left = result
  | .rotli | .rotri | .clzi | .ctzi | .popcounti => left.bits = result.bits
  | .cmpeqi | .cmpnei | .cmplti | .cmplei | .cmpgti | .cmpgei =>
    left = right ∧ 1 < result.bits
  | .cmpeqa | .cmpnea | .cmplta | .cmplea | .cmpgta | .cmpgea =>
    left = addressFormat ∧ right = addressFormat ∧ 1 < result.bits
  | .noti => 1 < result.bits
  | _ => True

/-- The value is in the range of a signed integer of that many bits. -/
def FitsSigned {width : Nat} (value : BitVec width) (bits : Nat) : Prop :=
  -2 ^ (bits - 1) ≤ value.toInt ∧ value.toInt < 2 ^ (bits - 1)

/-- The operands on which the evaluator keeps the meaning. Its right shifts and
its same-width sign extension run on the 64-bit word, whose upper bits must not
enter a narrower result. -/
def EvaluatorSafe (opcode : IROpcode) (result left : IntFormat) (a b : BitVec 64) : Prop :=
  match opcode with
  | .lsri =>
    countBelow result b → b = 0 ∨ result.bits = 64 ∨ a.msb = false
  | .asri => countBelow result b → b = 0 ∨ a.msb = (result.read a).msb
  | .signextendi =>
    left.bits = result.bits → countBelow addressFormat b →
      result.bits = 64 ∨ countBelow result b ∧ FitsSigned (result.read a) (result.bits - b.toNat)
  | _ => True

/-- Opcodes whose evaluation consults the sign of the left operand's type. -/
def usesSign : IROpcode → Bool
  | .divi | .modi | .cmplti | .cmplei | .cmpgti | .cmpgei => true
  | _ => false

/-- Opcodes whose evaluation consults the operation's width. -/
def usesWidth : IROpcode → Bool
  | .lsli | .lsri | .asri | .rotli | .rotri | .clzi | .ctzi | .popcounti => true
  | _ => false

/-- A type whose value fills a storage of one, two, four or eight bytes. -/
def FillsStorage (type : Option TypeRecord) : Prop :=
  ∃ record, type = some record ∧ (wordFormat type).bits = record.size * 8 ∧
    (record.size = 1 ∨ record.size = 2 ∨ record.size = 4 ∨ record.size = 8)

/-- An instruction and its left operand as the front end types them. -/
structure Typed (gen : Generator) (inst lhsNode : IRNode) (right : IntFormat) :
    Prop where
  wellFormed : ∀ type ∈ inst.type, type.WellFormed
  wellTyped :
    WellTyped inst.opcode (wordFormat inst.type) (wordFormat lhsNode.type) right
  leftInput : ∃ left rest, inst.inputs = left :: rest ∧ gen.nodes left = lhsNode
  sign : usesSign inst.opcode = true → ∃ type, lhsNode.type = some type ∧
    type.isUnsigned = (wordFormat lhsNode.type).isUnsigned
  width : usesWidth inst.opcode = true → operationWidth inst lhsNode = (wordFormat inst.type).bits
  storage : inst.opcode = .zeroextendi ∨ inst.opcode = .signextendi →
    FillsStorage inst.type ∧ FillsStorage lhsNode.type

/-! ## Loops over bits -/

section Loops

omit [Compiler]

theorem getLsbD_and_widthMask (word : BitVec 64) (width index : Nat) :
    (word &&& widthMask width).getLsbD index =
      (decide (index < width) && word.getLsbD index) := by
  rw [BitVec.getLsbD_and, widthMask]
  split_ifs with wide
  · rw [BitVec.getLsbD_allOnes]
    by_cases inside : index < 64
    · simp [inside, show index < width by omega]
    · simp [BitVec.getLsbD_of_ge word index (by omega)]
  · rw [getLsbD_lowMask (by omega), Bool.and_comm]

private theorem shiftLeft_test (word : BitVec 64) {index : Nat} (inside : index < 64) :
    (word &&& (1#64 <<< index) == 0) = !word.getLsbD index := by
  rw [← and_shiftLeft_ne_zero word inside, bne, Bool.not_not]

theorem countLeadingZeros_eq (word : BitVec 64) :
    ∀ {width : Nat}, width ≤ 64 → countLeadingZeros word width = clearFromTop word.getLsbD width
  | 0, _ => rfl
  | width + 1, fits => by
    rw [countLeadingZeros, clearFromTop, shiftLeft_test word (by omega),
      countLeadingZeros_eq word (by omega)]
    cases word.getLsbD width <;> rfl

theorem countTrailingZeros_eq (word : BitVec 64) :
    ∀ {start count : Nat}, start + count ≤ 64 →
      countTrailingZeros word start count = start + clearFrom word.getLsbD start count
  | _, 0, _ => rfl
  | start, count + 1, fits => by
    rw [countTrailingZeros, clearFrom, shiftLeft_test word (by omega),
      countTrailingZeros_eq word (by omega)]
    cases word.getLsbD start with
    | true => rfl
    | false => simp only [Bool.not_false, if_true, Bool.false_eq_true, if_false]; omega

theorem countOnes_eq :
    ∀ {fuel : Nat} (word : BitVec 64), populationCount word ≤ fuel →
      countOnes word fuel = populationCount word
  | 0, word, bound => by
    rw [countOnes]
    omega
  | fuel + 1, word, bound => by
    rw [countOnes]
    by_cases zero : word = 0
    · subst zero
      rfl
    · have cleared := populationCount_pred zero
      simp only [beq_iff_eq, zero, if_false]
      rw [countOnes_eq _ (by omega), cleared]

/-- The remainder made non-negative is the rotation amount. -/
private theorem rotation_amount (count : BitVec 64) {width : Nat} (positive : 0 < width) :
    (if count.toInt.tmod width < 0 then count.toInt.tmod width + width
      else count.toInt.tmod width) = count.toInt.emod width := by
  have bounds := Int.emod_nonneg count.toInt (show (width : Int) ≠ 0 by omega)
  have upper := Int.emod_lt_of_pos count.toInt (show (0 : Int) < width by omega)
  rw [Int.tmod_eq_emod]
  change _ = count.toInt % width
  split_ifs <;> simp_all
  all_goals omega

theorem and_widthMask (format : IntFormat) (word : BitVec 64) :
    word &&& widthMask format.bits = (format.read word).setWidth 64 := by
  apply BitVec.eq_of_getLsbD_eq
  intro index bound
  rw [getLsbD_and_widthMask, BitVec.getLsbD_setWidth, getLsbD_read]
  simp [bound]

theorem read_and_widthMask (format : IntFormat) (word : BitVec 64) :
    format.read (word &&& widthMask format.bits) = format.read word := by
  rw [and_widthMask, IntFormat.read, BitVec.setWidth_setWidth_of_le _ format.fits,
    BitVec.setWidth_eq]

theorem read_rotateInteger {format : IntFormat} (left : Bool) (a b : BitVec 64) :
    format.read (rotateInteger left format.bits a b) =
      if left then (format.read a).rotateLeft (b.toInt.emod format.bits).toNat
      else (format.read a).rotateRight (b.toInt.emod format.bits).toNat := by
  have fits := format.fits
  have positive := format.positive
  have nonneg := Int.emod_nonneg b.toInt (show (format.bits : Int) ≠ 0 by omega)
  have upper := Int.emod_lt_of_pos b.toInt (show (0 : Int) < format.bits by omega)
  have amountEq := rotation_amount b positive
  simp only [rotateInteger, amountEq]
  change (0 : Int) ≤ b.toInt.emod format.bits at nonneg
  change b.toInt.emod format.bits < format.bits at upper
  generalize b.toInt.emod format.bits = amount at nonneg upper
  obtain ⟨amount, rfl⟩ := Int.eq_ofNat_of_zero_le nonneg
  simp only [Int.toNat_natCast, Nat.cast_lt] at upper ⊢
  have reduced : amount % format.bits = amount := Nat.mod_eq_of_lt upper
  apply BitVec.eq_of_getLsbD_eq
  intro index bound
  by_cases still : amount = 0
  · cases left <;> simp [still, read_and_widthMask, bound]
  · have offset : ¬(amount == 0) = true := by simpa using still
    cases left with
    | true =>
      simp only [if_true, if_neg offset, read_and_widthMask, getLsbD_read,
        BitVec.getLsbD_or, BitVec.getLsbD_shiftLeft, BitVec.getLsbD_ushiftRight,
        getLsbD_and_widthMask, BitVec.getLsbD_rotateLeft, reduced, bound]
      by_cases low : index < amount
      · simp [low, show format.bits - amount + index < format.bits by omega]
      · simp [low, show index < 64 by omega, show index - amount < format.bits by omega,
          show ¬(format.bits - amount + index < format.bits) by omega]
    | false =>
      simp only [Bool.false_eq_true, if_false, if_neg offset, read_and_widthMask, getLsbD_read,
        BitVec.getLsbD_or, BitVec.getLsbD_shiftLeft, BitVec.getLsbD_ushiftRight,
        getLsbD_and_widthMask, BitVec.getLsbD_rotateRight, reduced, bound]
      by_cases low : index < format.bits - amount
      · simp [low, show amount + index < format.bits by omega]
      · simp [low, show index < 64 by omega, show ¬(amount + index < format.bits) by omega,
          show index - (format.bits - amount) < format.bits by omega]

end Loops

section Operations

variable {gen : Generator} {inst lhsNode : IRNode} {right : IntFormat} {a b : BitVec 64}

attribute [local simp] evaluateOperation integerValue WellTyped EvaluatorSafe

private theorem operationIsUnsigned_eq (typed : Typed gen inst lhsNode right)
    (consulted : usesSign inst.opcode = true) :
    operationIsUnsigned gen inst lhsNode = (wordFormat lhsNode.type).isUnsigned := by
  obtain ⟨type, typeEq, signEq⟩ := typed.sign consulted
  obtain ⟨left, rest, inputsEq, nodeEq⟩ := typed.leftInput
  rw [← signEq]
  cases opcode : inst.opcode <;> rw [opcode] at consulted <;> try cases consulted
  all_goals
    simp [operationIsUnsigned, Generator.comparisonIsUnsigned, isComparison,
      opcode, inputsEq, nodeEq, typeEq, IROpcode.ctorIdx]

omit [Compiler] in
/-- A count in range for the evaluator is a count below the operation's width. -/
private theorem shiftCountOutOfRange_iff {format : IntFormat} :
    shiftCountOutOfRange format.bits b = true ↔ ¬countBelow format b := by
  have fits := format.fits
  simp only [shiftCountOutOfRange, countBelow, Bool.or_eq_true, decide_eq_true_eq]
  omega

/-- The bits that an extension copies between two full storages. -/
private theorem extensionBits_eq (result : FillsStorage inst.type)
    (left : FillsStorage lhsNode.type) :
    extensionBits inst lhsNode =
      if (wordFormat lhsNode.type).bits = (wordFormat inst.type).bits then none
      else some (min (wordFormat inst.type).bits (wordFormat lhsNode.type).bits) := by
  obtain ⟨type, typeEq, typeBits, -⟩ := result
  obtain ⟨source, sourceEq, sourceBits, -⟩ := left
  simp only [extensionBits, typeEq, sourceEq] at *
  split_ifs <;> simp_all
  all_goals omega

theorem denotes_truth (wide : 1 < (wordFormat inst.type).bits) (condition meaning : Bool) :
    Denotes inst (truthValue condition) (IROpcode.ofTruth meaning) ↔
      condition = meaning := by
  rw [truthValue, denotes_constant, canonicalize,
    canonical_truth wide, IROpcode.ofTruth, Option.some.injEq]
  cases condition <;> cases meaning <;> decide

/-- Wrapping arithmetic, bit operations and moves keep their meaning. -/
private theorem denotes_wrapping (typed : Typed gen inst lhsNode right) (opcode : inst.opcode ∈
      [.movi, .mova, .addi, .adda, .subi, .suba, .muli, .andi, .ori, .xori, .negi, .onescomp]) :
    Denotes inst (evaluateOperation gen inst lhsNode a b)
      (inst.opcode.integerValue (wordFormat inst.type) (wordFormat lhsNode.type) a b) := by
  have wellFormed := typed.wellFormed
  simp only [List.mem_cons, List.not_mem_nil, or_false] at opcode
  rcases opcode with opcode | opcode | opcode | opcode | opcode | opcode | opcode |
      opcode | opcode | opcode | opcode | opcode <;>
    simp only [evaluateOperation, integerValue, opcode, denotes_constant]
  · exact (denotes_typed inst wellFormed _ _).mpr rfl
  · exact (denotes_typed inst wellFormed _ _).mpr (read_add _ _)
  · rw [canonicalize, read_add]
  · exact (denotes_typed inst wellFormed _ _).mpr (read_sub _ _)
  · rw [canonicalize, read_sub]
  · exact (denotes_typed inst wellFormed _ _).mpr (read_mul _ _)
  · exact (denotes_typed inst wellFormed _ _).mpr BitVec.setWidth_and
  · exact (denotes_typed inst wellFormed _ _).mpr BitVec.setWidth_or
  · exact (denotes_typed inst wellFormed _ _).mpr BitVec.setWidth_xor
  · refine (denotes_typed inst wellFormed _ _).mpr ?_
    rw [zero_sub, read_neg]
  · exact (denotes_typed inst wellFormed _ _).mpr (read_not _)

section

variable (typed : Typed gen inst lhsNode right)
  (leftCanonical : (wordFormat lhsNode.type).Canonical a)

include typed leftCanonical

/-- Division and remainder keep their meaning where they are evaluated. -/
private theorem denotes_division (rightCanonical : right.Canonical b)
    (opcode : inst.opcode ∈ [.divi, .modi]) :
    Denotes inst (evaluateOperation gen inst lhsNode a b)
      (inst.opcode.integerValue (wordFormat inst.type) (wordFormat lhsNode.type) a b) := by
  have wellFormed := typed.wellFormed
  have wellTyped := typed.wellTyped
  simp only [List.mem_cons, List.not_mem_nil, or_false] at opcode
  have signEq := operationIsUnsigned_eq typed (by
    rcases opcode with opcode | opcode <;> rw [opcode] <;> rfl)
  obtain ⟨leftEq, rightEq⟩ : wordFormat lhsNode.type = wordFormat inst.type ∧
      right = wordFormat inst.type := by
    rcases opcode with opcode | opcode <;> simpa [WellTyped, opcode] using wellTyped
  rw [leftEq] at leftCanonical signEq
  rw [rightEq] at rightCanonical
  have zero_iff := rightCanonical.read_eq_zero_iff
  by_cases zero : b = 0
  · rcases opcode with opcode | opcode <;>
      simp [evaluateOperation, opcode, divisionUndefined, zero]
  by_cases undefined : divisionUndefined (wordFormat inst.type).isUnsigned a b = true
  · rcases opcode with opcode | opcode <;>
      simp [evaluateOperation, opcode, signEq, undefined]
  · rcases opcode with opcode | opcode
    all_goals
      simp only [evaluateOperation, integerValue, opcode, signEq, undefined,
        zero_iff, zero, Bool.false_eq_true, if_false, denotes_typed inst wellFormed]
    · cases sign : (wordFormat inst.type).isUnsigned with
      | true => exact read_udiv leftCanonical rightCanonical sign
      | false => exact read_sdiv leftCanonical rightCanonical sign
    · cases sign : (wordFormat inst.type).isUnsigned with
      | true => exact read_umod leftCanonical rightCanonical sign
      | false => exact read_srem leftCanonical rightCanonical sign

/-- Comparisons of canonical operands and logical negation keep their meaning. -/
private theorem denotes_comparison (rightCanonical : right.Canonical b) (opcode : inst.opcode ∈
      [.cmpeqi, .cmpeqa, .cmpnei, .cmpnea, .cmplti, .cmplta, .cmplei, .cmplea, .cmpgti, .cmpgta,
      .cmpgei, .cmpgea]) :
    Denotes inst (evaluateOperation gen inst lhsNode a b)
      (inst.opcode.integerValue (wordFormat inst.type) (wordFormat lhsNode.type) a b) := by
  have wellTyped := typed.wellTyped
  simp only [List.mem_cons, List.not_mem_nil, or_false] at opcode
  obtain ⟨rightEq, wide, addressSign⟩ : right = wordFormat lhsNode.type ∧
      1 < (wordFormat inst.type).bits ∧
      (inst.opcode ∈ [.cmplta, .cmplea, .cmpgta, .cmpgea] →
        (wordFormat lhsNode.type).isUnsigned = true) := by
    rcases opcode with opcode | opcode | opcode | opcode | opcode | opcode | opcode |
        opcode | opcode | opcode | opcode | opcode <;>
      simp only [WellTyped, opcode] at wellTyped ⊢ <;> simp [wellTyped, addressFormat]
  rw [rightEq] at rightCanonical
  have signEq (ordered : usesSign inst.opcode = true ∨
      inst.opcode ∈ [.cmplta, .cmplea, .cmpgta, .cmpgea]) :
      operationIsUnsigned gen inst lhsNode = (wordFormat lhsNode.type).isUnsigned := by
    rcases ordered with integer | address
    · exact operationIsUnsigned_eq typed integer
    · rw [addressSign address]
      simp only [List.mem_cons, List.not_mem_nil, or_false] at address
      rcases address with opcode | opcode | opcode | opcode <;>
        simp [operationIsUnsigned, Generator.comparisonIsUnsigned, isComparison,
          opcode, IROpcode.ctorIdx]
  rcases opcode with opcode | opcode | opcode | opcode | opcode | opcode | opcode |
      opcode | opcode | opcode | opcode | opcode <;>
    simp only [opcode, usesSign, List.mem_cons, List.not_mem_nil, reduceCtorEq, or_false,
      or_true, Bool.false_eq_true, forall_const, IsEmpty.forall_iff] at signEq <;>
    simp only [evaluateOperation, integerValue, opcode, signEq, denotes_truth wide]
  · exact leftCanonical.beq_eq rightCanonical
  · exact leftCanonical.beq_eq rightCanonical
  · exact congrArg _ (leftCanonical.beq_eq rightCanonical)
  · exact congrArg _ (leftCanonical.beq_eq rightCanonical)
  · exact leftCanonical.lt_eq rightCanonical
  · exact leftCanonical.lt_eq rightCanonical
  · exact leftCanonical.le_eq rightCanonical
  · exact leftCanonical.le_eq rightCanonical
  · exact rightCanonical.lt_eq leftCanonical
  · exact rightCanonical.lt_eq leftCanonical
  · exact rightCanonical.le_eq leftCanonical
  · exact rightCanonical.le_eq leftCanonical

private theorem denotes_noti (opcode : inst.opcode = .noti) :
    Denotes inst (evaluateOperation gen inst lhsNode a b)
      (inst.opcode.integerValue (wordFormat inst.type) (wordFormat lhsNode.type) a b) := by
  have wide : 1 < (wordFormat inst.type).bits := by
    simpa [WellTyped, opcode] using typed.wellTyped
  simp only [evaluateOperation, integerValue, opcode, denotes_truth wide]
  rw [Bool.eq_iff_iff, beq_iff_eq, beq_iff_eq, leftCanonical.read_eq_zero_iff]

end

/-- Rotations and bit counts keep their meaning. -/
private theorem denotes_bitCount (typed : Typed gen inst lhsNode right)
    (opcode : inst.opcode ∈ [.rotli, .rotri, .clzi, .ctzi, .popcounti]) :
    Denotes inst (evaluateOperation gen inst lhsNode a b)
      (inst.opcode.integerValue (wordFormat inst.type) (wordFormat lhsNode.type) a b) := by
  have wellFormed := typed.wellFormed
  have wellTyped := typed.wellTyped
  simp only [List.mem_cons, List.not_mem_nil, or_false] at opcode
  have widthEq := typed.width (by
    rcases opcode with opcode | opcode | opcode | opcode | opcode <;> rw [opcode] <;> rfl)
  have bitsEq : (wordFormat lhsNode.type).bits = (wordFormat inst.type).bits := by
    rcases opcode with opcode | opcode | opcode | opcode | opcode <;>
      simpa [WellTyped, opcode] using wellTyped
  have fits := (wordFormat inst.type).fits
  have masked (index : Nat) (below : index < (wordFormat inst.type).bits) :
      (a &&& widthMask (wordFormat inst.type).bits).getLsbD index =
        ((wordFormat lhsNode.type).read a).getLsbD index := by
    rw [getLsbD_and_widthMask, getLsbD_read, bitsEq]
  have readNat (count : Nat) : (wordFormat inst.type).read (.ofNat 64 count) =
      .ofNat _ count := BitVec.setWidth_ofNat_of_le fits count
  rcases opcode with opcode | opcode | opcode | opcode | opcode <;>
    simp only [evaluateOperation, integerValue, opcode, widthEq,
      denotes_typed inst wellFormed, readNat]
  · rw [read_rotateInteger, if_pos rfl]
  · rw [read_rotateInteger, if_neg (by decide)]
  · rw [countLeadingZeros_eq _ fits, clearFromTop_congr masked]
    exact congrArg (fun width => BitVec.ofNat (wordFormat inst.type).bits
      (clearFromTop ((wordFormat lhsNode.type).read a).getLsbD width)) bitsEq.symm
  · rw [countTrailingZeros_eq _ (by rwa [Nat.zero_add]), Nat.zero_add,
      clearFrom_congr (by simpa using masked)]
    exact congrArg (fun width => BitVec.ofNat (wordFormat inst.type).bits
      (clearFrom ((wordFormat lhsNode.type).read a).getLsbD 0 width)) bitsEq.symm
  · rw [countOnes_eq _ (populationCount_le _), ← bitsEq, and_widthMask, populationCount,
      BitVec.toNat_setWidth_of_le (wordFormat lhsNode.type).fits, populationCount]

/-! ## Shifts and extensions -/

omit [Compiler] in
theorem countBelow_toNat {format : IntFormat} (below : countBelow format b) :
    b.toNat < format.bits := by
  obtain ⟨nonneg, upper⟩ := below
  rw [BitVec.toInt_eq_toNat_cond] at nonneg upper
  split at upper <;> omega

/-- Left shifts keep their meaning, right shifts when the bits that come down are
those the format's own shift would bring. -/
private theorem denotes_shift_iff (typed : Typed gen inst lhsNode right)
    (leftCanonical : (wordFormat lhsNode.type).Canonical a)
    (opcode : inst.opcode ∈ [.lsli, .lsri, .asri]) :
    Denotes inst (evaluateOperation gen inst lhsNode a b)
        (inst.opcode.integerValue (wordFormat inst.type) (wordFormat lhsNode.type) a b) ↔
      EvaluatorSafe inst.opcode (wordFormat inst.type) (wordFormat lhsNode.type) a b := by
  have wellFormed := typed.wellFormed
  have wellTyped := typed.wellTyped
  simp only [List.mem_cons, List.not_mem_nil, or_false] at opcode
  have widthEq := typed.width (by
    rcases opcode with opcode | opcode | opcode <;> rw [opcode] <;> rfl)
  have formatEq : wordFormat lhsNode.type = wordFormat inst.type := by
    rcases opcode with opcode | opcode | opcode <;> simpa [WellTyped, opcode] using wellTyped
  rw [formatEq] at leftCanonical
  have zero_iff : b.toNat = 0 ↔ b = 0 := by
    rw [← BitVec.toNat_inj]
    rfl
  by_cases below : countBelow (wordFormat inst.type) b
  · have inside := countBelow_toNat below
    have inRange : ¬shiftCountOutOfRange (wordFormat inst.type).bits b = true := by
      rw [shiftCountOutOfRange_iff, not_not]
      exact below
    rcases opcode with opcode | opcode | opcode <;>
      simp only [evaluateOperation, integerValue, EvaluatorSafe, opcode, widthEq,
        if_neg inRange, if_pos below, denotes_typed inst wellFormed]
    · simp only [read_shiftLeft]
    · rw [read_ushiftRight_iff leftCanonical inside, zero_iff]
      simp [below]
    · rw [read_sshiftRight_iff leftCanonical, zero_iff]
      simp [below]
  · have outOfRange : shiftCountOutOfRange (wordFormat inst.type).bits b = true := by
      rw [shiftCountOutOfRange_iff]
      exact below
    rcases opcode with opcode | opcode | opcode <;>
      simp [evaluateOperation, EvaluatorSafe, opcode, widthEq, outOfRange, below]

/-- Zero extensions and masks keep their meaning. -/
private theorem denotes_zeroextendi (typed : Typed gen inst lhsNode right)
    (opcode : inst.opcode = .zeroextendi) :
    Denotes inst (evaluateOperation gen inst lhsNode a b)
      (inst.opcode.integerValue (wordFormat inst.type) (wordFormat lhsNode.type) a b) := by
  have wellFormed := typed.wellFormed
  obtain ⟨resultFills, leftFills⟩ := typed.storage (.inl opcode)
  simp only [evaluateOperation, integerValue, opcode, extensionBits_eq resultFills leftFills]
  split_ifs with same
  · exact (denotes_typed inst wellFormed _ _).mpr BitVec.setWidth_and
  · refine (denotes_typed inst wellFormed _ _).mpr ?_
    apply BitVec.eq_of_getLsbD_eq
    intro index bound
    rw [getLsbD_read, getLsbD_and_widthMask, BitVec.getLsbD_setWidth, getLsbD_read]
    simp [bound]

/-- Sign extensions between widths keep their meaning. Within one width the
result is right exactly when no bit above the width enters it. -/
private theorem denotes_signextendi_iff (typed : Typed gen inst lhsNode right)
    (opcode : inst.opcode = .signextendi) :
    Denotes inst (evaluateOperation gen inst lhsNode a b)
        (inst.opcode.integerValue (wordFormat inst.type) (wordFormat lhsNode.type) a b) ↔
      EvaluatorSafe inst.opcode (wordFormat inst.type) (wordFormat lhsNode.type) a b := by
  have wellFormed := typed.wellFormed
  obtain ⟨resultFills, leftFills⟩ := typed.storage (.inr opcode)
  simp only [evaluateOperation, integerValue, EvaluatorSafe, opcode,
    extensionBits_eq resultFills leftFills]
  by_cases same : (wordFormat lhsNode.type).bits = (wordFormat inst.type).bits
  · simp only [same, if_true, forall_const]
    by_cases inWord : countBelow addressFormat b
    · have small := countBelow_toNat inWord
      have folded : ¬(decide (b.toInt < 0) || decide (64 ≤ b.toInt)) = true := by
        obtain ⟨nonneg, upper⟩ := inWord
        simp only [addressFormat] at upper
        simp only [Bool.or_eq_true, decide_eq_true_eq]
        omega
      rw [if_neg folded]
      simp only [inWord, forall_const]
      by_cases wide : (wordFormat inst.type).bits = 64
      · have below : countBelow (wordFormat inst.type) b := by
          rw [countBelow, wide]
          exact inWord
        rw [if_pos below, denotes_typed inst wellFormed, read_shiftLeft_sshiftRight_of_wide wide]
        simp [wide]
      · by_cases below : countBelow (wordFormat inst.type) b
        · have inside := countBelow_toNat below
          have room : b.toNat + (wordFormat inst.type).bits ≤ 64 := by
            obtain ⟨record, -, bitsEq, sizes⟩ := resultFills
            omega
          rw [if_pos below, denotes_typed inst wellFormed, read_shiftLeft_sshiftRight _ room,
            eq_comm, shiftLeft_sshiftRight_eq_iff _ inside, FitsSigned]
          simp [wide, below]
        · rw [if_neg below]
          simp only [wide, below, false_and, or_false, iff_false]
          exact denotes_typed_none inst wellFormed _
    · have declined : (decide (b.toInt < 0) || decide (64 ≤ b.toInt)) = true := by
        simp only [countBelow, addressFormat] at inWord
        simp only [Bool.or_eq_true, decide_eq_true_eq]
        omega
      simp [declined, inWord]
  · simp only [same, if_false, IsEmpty.forall_iff, iff_true]
    have resultFit := (wordFormat inst.type).fits
    have leftFit := (wordFormat lhsNode.type).fits
    have resultPositive := (wordFormat inst.type).positive
    have leftPositive := (wordFormat lhsNode.type).positive
    generalize minEq : min (wordFormat inst.type).bits (wordFormat lhsNode.type).bits = bits
    have narrow : ¬64 ≤ bits := by omega
    simp only [narrow, if_false]
    refine (denotes_typed inst wellFormed _ _).mpr ?_
    have masked := maskInteger_eq_canonicalize ⟨bits, false, by omega, by omega⟩
      (Nat.not_le.mp narrow) a
    rw [masked]
    apply BitVec.eq_of_getLsbD_eq
    intro index bound
    rw [getLsbD_read, canonicalize, IntFormat.extend,
      if_neg Bool.false_ne_true, BitVec.getLsbD_signExtend, BitVec.getLsbD_signExtend,
      BitVec.msb_eq_getLsbD_last, BitVec.msb_eq_getLsbD_last]
    simp only [getLsbD_read]
    -- Both sides read bit `index` of the source, or the top bit that is copied.
    by_cases copied : index < bits
    · simp [copied, bound, show index < 64 by omega,
        show index < (wordFormat lhsNode.type).bits by omega]
    · have leftMin : bits = (wordFormat lhsNode.type).bits := by omega
      simp [copied, bound, show index < 64 by omega, ← leftMin]

/-- The evaluator computes the fixed-width meaning of a typed operation exactly on
the safe operands. -/
theorem evaluateOperation_denotes_iff (typed : Typed gen inst lhsNode right)
    (leftCanonical : (wordFormat lhsNode.type).Canonical a) (rightCanonical : right.Canonical b)
    (supported : isSupportedIntegerExpression inst.opcode = true) :
    Denotes inst (evaluateOperation gen inst lhsNode a b)
        (inst.opcode.integerValue (wordFormat inst.type) (wordFormat lhsNode.type) a b) ↔
      EvaluatorSafe inst.opcode (wordFormat inst.type) (wordFormat lhsNode.type) a b := by
  have always (denotes : Denotes inst (evaluateOperation gen inst lhsNode a b)
      (inst.opcode.integerValue (wordFormat inst.type) (wordFormat lhsNode.type) a b))
      (safe : ∀ result left, EvaluatorSafe inst.opcode result left a b) :
      Denotes inst (evaluateOperation gen inst lhsNode a b)
          (inst.opcode.integerValue (wordFormat inst.type) (wordFormat lhsNode.type) a b) ↔
        EvaluatorSafe inst.opcode (wordFormat inst.type) (wordFormat lhsNode.type) a b :=
    ⟨fun _ => safe _ _, fun _ => denotes⟩
  cases opcode : inst.opcode
  case lsli | lsri | asri =>
    rw [← opcode]
    exact denotes_shift_iff typed leftCanonical (by simp [opcode])
  case signextendi =>
    rw [← opcode]
    exact denotes_signextendi_iff typed opcode
  case zeroextendi =>
    rw [← opcode]
    exact always (denotes_zeroextendi typed opcode) (by simp [opcode, EvaluatorSafe])
  case noti =>
    rw [← opcode]
    exact always (denotes_noti typed leftCanonical opcode) (by simp [opcode, EvaluatorSafe])
  case divi | modi =>
    rw [← opcode]
    exact always (denotes_division typed leftCanonical rightCanonical (by simp [opcode]))
      (by simp [opcode, EvaluatorSafe])
  case rotli | rotri | clzi | ctzi | popcounti =>
    rw [← opcode]
    exact always (denotes_bitCount typed (by simp [opcode])) (by simp [opcode, EvaluatorSafe])
  case cmpeqi | cmpeqa | cmpnei | cmpnea | cmplti | cmplta | cmplei | cmplea | cmpgti
      | cmpgta | cmpgei | cmpgea =>
    rw [← opcode]
    exact always (denotes_comparison typed leftCanonical rightCanonical (by simp [opcode]))
      (by simp [opcode, EvaluatorSafe])
  case movi | mova | addi | adda | subi | suba | muli | andi | ori | xori | negi
      | onescomp =>
    rw [← opcode]
    exact always (denotes_wrapping typed (by simp [opcode])) (by simp [opcode, EvaluatorSafe])
  all_goals
    rw [opcode] at supported
    cases supported

variable {constant : BitVec 64}

/-- Masking to a storage that the value fills leaves a canonical word. -/
theorem typedConstantValue_canonical {word : BitVec 64} (storage : FillsStorage inst.type)
    (equal : typedConstantValue inst word = .constant constant) :
    (wordFormat inst.type).Canonical constant := by
  obtain ⟨record, typeEq, fills, sizes⟩ := storage
  rw [typeEq] at fills ⊢
  simp only [typedConstantValue, typeEq] at equal
  split_ifs at equal with skipped <;> cases equal
  · apply canonical_of_bits_eq
    cases integral : record.isIntegral with
    | false => simp [wordFormat, TypeRecord.intFormat?, integral, addressFormat]
    | true =>
      simp only [integral, Bool.not_true, Bool.false_or, Bool.or_eq_true, beq_iff_eq,
        decide_eq_true_eq] at skipped
      omega
  · simp only [Bool.or_eq_true, Bool.not_eq_true', beq_iff_eq, decide_eq_true_eq, not_or,
      Bool.not_eq_false, not_le] at skipped
    have sign : (wordFormat (some record)).isUnsigned = record.isUnsigned := by
      rw [wordFormat, Option.bind_some, TypeRecord.intFormat?] at fills ⊢
      split_ifs at fills ⊢ with valid
      · rfl
      · simp only [Option.getD_none, addressFormat] at fills
        omega
    rw [← fills, ← sign, maskInteger_eq_canonicalize _ (by omega)]
    exact (wordFormat (some record)).canonical_canonicalize word

omit [Compiler] in
/-- An extension copies no more bits than the result's storage has. -/
private theorem extensionBits_le {bits : Nat} {record : TypeRecord}
    (typeEq : inst.type = some record) (extended : extensionBits inst lhsNode = some bits) :
    bits ≤ record.size * 8 := by
  cases source : lhsNode.type with
  | none => simp [extensionBits, source] at extended
  | some sourceRecord =>
    simp only [extensionBits, source, typeEq] at extended
    split_ifs at extended <;> cases extended <;> omega

/-- The evaluator brings its constant into the range of a type whose value fills its
storage. The address operations do not mask. -/
theorem evaluateOperation_canonical (storage : FillsStorage inst.type)
    (masks : inst.opcode ≠ .mova ∧ inst.opcode ≠ .adda ∧ inst.opcode ≠ .suba)
    (equal : evaluateOperation gen inst lhsNode a b = .constant constant) :
    (wordFormat inst.type).Canonical constant := by
  have wide : 1 < (wordFormat inst.type).bits := by
    obtain ⟨record, _, fills, sizes⟩ := storage
    omega
  have truth {condition : Bool} (equal : truthValue condition = .constant constant) :
      (wordFormat inst.type).Canonical constant := by
    cases equal
    exact canonical_truth wide condition
  have copied {bits : Nat} (extended : extensionBits inst lhsNode = some bits)
      (whole : 64 ≤ bits) : (wordFormat inst.type).Canonical constant := by
    obtain ⟨record, typeEq, fills, sizes⟩ := storage
    have bound := extensionBits_le typeEq extended
    exact canonical_of_bits_eq (by omega) constant
  cases opcode : inst.opcode <;> simp only [evaluateOperation, opcode] at equal
  all_goals
    try split at equal
  all_goals
    try split_ifs at equal
  all_goals
    first
    | exact typedConstantValue_canonical storage equal
    | exact truth equal
    | exact copied ‹_› ‹_›
    | exact absurd opcode masks.1
    | exact absurd opcode masks.2.1
    | exact absurd opcode masks.2.2
    | cases equal

end Operations

end DaveCC.Optimization.Sccp
