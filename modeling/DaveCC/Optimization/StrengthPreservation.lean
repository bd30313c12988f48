import DaveCC.Optimization.StrengthReduction

/-!
# Strength reduction preserves values

Every rule for an instruction but the division by a constant: where the instruction
has a value, what replaces it has the same value at the width of the type. Constants
may be the sign or the zero extension of their number.
-/

namespace DaveCC.Optimization.StrengthReduction

open DaveCC.Arith DaveCC.Backend DaveCC.Loop IntFormat IROpcode

section PowersOfTwo

/-- A word with one set bit is a power of two. -/
theorem exists_toNat_eq_two_pow {value : BitVec 64} (nonzero : value ≠ 0)
    (single : value &&& (value - 1) = 0) : ∃ exponent, value.toNat = 2 ^ exponent := by
  have positive : value.toNat ≠ 0 := fun zero => nonzero (BitVec.eq_of_toNat_eq zero)
  have pred : (value - 1).toNat = value.toNat - 1 := by
    rw [BitVec.toNat_sub_of_le]
    · rfl
    · rw [BitVec.le_def]
      exact Nat.one_le_iff_ne_zero.mpr positive
  apply (Nat.and_sub_one_eq_zero_iff_isPowerOfTwo positive).mp
  rw [← pred, ← BitVec.toNat_and, single]
  rfl

/-- The low bit of a power of two is set for the power zero only. -/
theorem and_one_beq_zero {value : BitVec 64} {exponent : ℕ} (power : value.toNat = 2 ^ exponent) :
    (value &&& 1 == 0) = decide (0 < exponent) := by
  have low : (value &&& 1).toNat = 2 ^ exponent % 2 := by
    rw [BitVec.toNat_and, power]
    exact Nat.and_one_is_mod _
  have zero : (value &&& 1 == 0) = decide ((value &&& 1).toNat = 0) := by
    rw [Bool.beq_eq_decide_eq, decide_eq_decide]
    exact BitVec.toNat_inj.symm
  rw [zero, low, decide_eq_decide]
  cases exponent with
  | zero => decide
  | succ exponent =>
    rw [Nat.pow_succ, Nat.mul_mod_left]
    exact iff_of_true rfl (Nat.succ_pos exponent)

/-- The loop of `LogBase2` ends at the exponent of a power of two. -/
theorem logBase2_eq {value : BitVec 64} {exponent : ℕ} (power : value.toNat = 2 ^ exponent) :
    logBase2 value = some exponent := by
  have small : exponent < 64 := (Nat.pow_lt_pow_iff_right (by omega)).mp (power ▸ value.isLt)
  have loop : ∃ final,
      runWhile (fun state : ℕ × BitVec 64 => state.2 &&& 1 == 0)
        (fun state => some (state.1 + 1, state.2 >>> (1 : ℕ))) 64 (0, value) = some final ∧
      (final.1 ≤ exponent ∧ final.2.toNat = 2 ^ (exponent - final.1)) ∧
      (final.2 &&& 1 == 0) = false := by
    apply exists_runWhile
      (fun state : ℕ × BitVec 64 => state.1 ≤ exponent ∧ state.2.toNat = 2 ^ (exponent - state.1))
      (fun state : ℕ × BitVec 64 => exponent - state.1)
    · intro state holds goes_on
      rw [and_one_beq_zero holds.2, decide_eq_true_eq] at goes_on
      refine ⟨_, rfl, ⟨by omega, ?_⟩, by omega⟩
      rw [BitVec.toNat_ushiftRight, holds.2, Nat.shiftRight_eq_div_pow,
        Nat.pow_div (by omega) (by omega)]
      congr 1
    · exact ⟨Nat.zero_le _, power⟩
    · omega
  rcases loop with ⟨final, returns, holds, done⟩
  rw [and_one_beq_zero holds.2, decide_eq_false_iff_not] at done
  rw [logBase2, returns, Option.map_some]
  congr 1
  omega

variable [Compiler]

omit [Compiler] in
/-- A word without bits outside the mask is its part inside. -/
theorem and_eq_self_of_and_not {value mask : BitVec 64} (outside : value &&& ~~~mask = 0) :
    value &&& mask = value := by
  apply BitVec.eq_of_getLsbD_eq
  intro index below
  have bit : (value &&& ~~~mask).getLsbD index = false := by
    rw [outside]
    exact BitVec.getLsbD_zero
  rw [BitVec.getLsbD_and, BitVec.getLsbD_not, decide_eq_true below, Bool.true_and,
    Bool.and_eq_false_iff, Bool.not_eq_false'] at bit
  rw [BitVec.getLsbD_and]
  cases bit with
  | inl clear => rw [clear, Bool.false_and]
  | inr masked => rw [masked, Bool.and_true]

/-- A power of two below the width, as its constant has it. -/
theorem isIntConstantPowerOf2_spec {node : IRNode} {maxbits : ℕ}
    (power : isIntConstantPowerOf2 node maxbits = true) :
    node.opcode.isConst = true ∧ node.type.isSome = true ∧
      ∃ exponent < maxbits, node.ivalue.toNat = 2 ^ exponent := by
  simp only [isIntConstantPowerOf2, isIntegralConstant, Bool.and_eq_true, Bool.not_eq_true',
    decide_eq_true_eq, bne_iff_ne, ne_eq, beq_iff_eq] at power
  rcases power with ⟨⟨⟨⟨⟨constant, integral⟩, positive, atMost⟩, _⟩, within⟩, nonzero, single⟩
  refine ⟨constant, Option.isSome_of_any integral, ?_⟩
  have masked (narrow : maxbits < 64) : node.ivalue &&& lowMask maxbits = node.ivalue := by
    apply and_eq_self_of_and_not
    simpa [narrow] using within
  have whole : (if maxbits < 64 then node.ivalue &&& lowMask maxbits else node.ivalue) =
      node.ivalue := by
    split
    next narrow => exact masked narrow
    next => rfl
  rw [whole] at nonzero single
  rcases exists_toNat_eq_two_pow nonzero single with ⟨exponent, power⟩
  refine ⟨exponent, ?_, power⟩
  apply (Nat.pow_lt_pow_iff_right (a := 2) (by omega)).mp
  rw [← power]
  cases Nat.lt_or_ge maxbits 64 with
  | inl narrow =>
    rw [← masked narrow, toNat_and_lowMask _ narrow]
    exact Nat.mod_lt _ (Nat.two_pow_pos _)
  | inr wide =>
    have full : maxbits = 64 := by omega
    rw [full]
    exact node.ivalue.isLt

end PowersOfTwo

section Constants

variable {format : IntFormat}

theorem read_zero : format.read 0 = 0 :=
  BitVec.setWidth_zero _ _

theorem read_one : format.read 1 = 1 := by
  apply BitVec.eq_of_toNat_eq
  rw [toNat_read]
  rfl

theorem one_ne_zero_of_format : (1 : BitVec format.bits) ≠ 0 := by
  intro same
  have numbers : (BitVec.ofNat format.bits 1).toNat = (BitVec.ofNat format.bits 0).toNat := congrArg BitVec.toNat same
  rw [BitVec.toNat_one format.positive, BitVec.toNat_zero] at numbers
  exact absurd numbers Nat.one_ne_zero

variable {exponent : ℕ}

/-- A power of two at the format's width. -/
theorem read_eq_twoPow {value : BitVec 64} (power : value.toNat = 2 ^ exponent) :
    format.read value = BitVec.twoPow format.bits exponent := by
  apply BitVec.eq_of_toNat_eq
  rw [toNat_read, power, BitVec.toNat_twoPow]

theorem toNat_read_of_power {value : BitVec 64} (below : exponent < format.bits)
    (power : value.toNat = 2 ^ exponent) : (format.read value).toNat = 2 ^ exponent := by
  rw [toNat_read, power, Nat.mod_eq_of_lt (Nat.pow_lt_pow_right (by omega) below)]

/-- The mask of a power of two below the width. -/
theorem toNat_read_bitMask {value : BitVec 64} (below : exponent < format.bits)
    (power : value.toNat = 2 ^ exponent) :
    (format.read (bitMask value)).toNat = 2 ^ exponent - 1 := by
  have positive := Nat.two_pow_pos exponent
  have larger : 2 ^ exponent < 2 ^ format.bits := Nat.pow_lt_pow_right (by omega) below
  have pred : (value - 1).toNat = 2 ^ exponent - 1 := by
    rw [BitVec.toNat_sub_of_le, power]
    · rfl
    · rw [BitVec.le_def, power]
      exact positive
  rw [toNat_read, bitMask, pred, Nat.mod_eq_of_lt (by omega)]

theorem read_lowMask (format : IntFormat) (narrow : format.bits < 64) :
    format.read (lowMask format.bits) = BitVec.allOnes format.bits := by
  have positive := Nat.two_pow_pos format.bits
  apply BitVec.eq_of_toNat_eq
  rw [toNat_read, lowMask_toNat narrow, BitVec.toNat_allOnes, Nat.mod_eq_of_lt (by omega)]

/-- Words brought to a format of the same width keep their low bits. -/
theorem read_canonicalize_of_bits {other : IntFormat} (same : other.bits = format.bits)
    (word : BitVec 64) : format.read (other.canonicalize word) = format.read word := by
  have numbers := congrArg BitVec.toNat (other.read_canonicalize word)
  rw [toNat_read, toNat_read, same] at numbers
  apply BitVec.eq_of_toNat_eq
  rw [toNat_read, toNat_read, numbers]

end Constants

/-- The logarithm of a power of two is a count of its format. -/
theorem countBelow_log {format : IntFormat} {exponent : ℕ} (below : exponent < format.bits) :
    countBelow format (BitVec.ofNat 64 exponent) ∧
      (BitVec.ofNat 64 exponent).toNat = exponent := by
  have fits := format.fits
  have toInt : (BitVec.ofNat 64 exponent).toInt = exponent := by
    rw [BitVec.toInt_ofNat', Int.bmod_eq_of_le (by omega) (by omega)]
  refine ⟨⟨by omega, by omega⟩, ?_⟩
  rw [BitVec.toNat_ofNat, Nat.mod_eq_of_lt (by omega)]

section Types

variable [Compiler] {type constantType : TypeRecord} (positive : 0 < type.size) (small : type.size ≤ 8)

include positive small

/-- `WrapToType` keeps the low bits. -/
theorem read_wrapToType (value : BitVec 64) :
    (storageFormat type).read (wrapToType type value) = (storageFormat type).read value := by
  have format := storageFormat_of_size positive small
  unfold wrapToType
  dsimp only
  rw [← format.1]
  split
  next => rfl
  next narrow =>
    have mask := read_lowMask (storageFormat type) (by omega)
    have kept : (storageFormat type).read (value &&& lowMask (storageFormat type).bits) =
        (storageFormat type).read value := by
      rw [read_and, mask, BitVec.and_allOnes]
    split
    next =>
      rw [read_or, read_not, kept, mask, BitVec.not_allOnes, BitVec.or_zero]
    next => exact kept

/-- A constant with all bits of its type set has all bits of a type of its size set. -/
theorem isIntAllOnes_spec {node : IRNode} (ones : isIntAllOnes node = true)
    (typed : node.type = some constantType) (sameSize : constantType.size = type.size) :
    node.opcode.isConst = true ∧
      (storageFormat type).read node.ivalue = BitVec.allOnes (storageFormat type).bits := by
  have format := storageFormat_of_size positive small
  unfold isIntAllOnes at ones
  rw [typed] at ones
  simp only [sameSize, ← format.1, isIntConst, Bool.and_eq_true] at ones
  rcases ones with ⟨⟨⟨constant, _⟩, _⟩, set⟩
  refine ⟨constant.1.1, ?_⟩
  split at set
  next narrow =>
    rw [← read_lowMask _ narrow, ← beq_iff_eq.mp set, read_and, read_lowMask _ narrow,
      BitVec.and_allOnes]
  next wide =>
    rw [beq_iff_eq.mp set]
    apply BitVec.eq_of_toNat_eq
    rw [toNat_read, BitVec.toNat_allOnes, BitVec.toNat_allOnes,
      show (storageFormat type).bits = 64 by omega]
    rfl

end Types

/-! ## Rules for one operation -/

theorem preserves_refl (format : IntFormat) (value : Option (BitVec 64)) :
    Preserves format value value :=
  fun word has => ⟨word, has, rfl⟩

/-- A result with the low bits of a word. -/
theorem preserves_extend_word {format : IntFormat} {result : BitVec format.bits}
    {word : BitVec 64} (same : result = format.read word) :
    Preserves format (some (format.extend result)) (some word) := by
  intro old value
  refine ⟨word, rfl, ?_⟩
  rw [← Option.some.inj value, SameAt, read_extend, same]

theorem preserves_extend_extend {format : IntFormat} {result other : BitVec format.bits}
    (same : result = other) :
    Preserves format (some (format.extend result)) (some (format.extend other)) :=
  preserves_extend_word (same.trans (format.read_extend other).symm)

section Rules

variable [Compiler] {gen : Generator} {words : Words} {type : TypeRecord} {opcode : IROpcode}
  {left right : NodeId} {new : Option (BitVec 64)} {constant : BitVec 64}

/-- An operation has a value only for values of its operands. -/
theorem preserves_operation (preserves : ∀ a b, (Term.node left).value gen words = some a →
      (Term.node right).value gen words = some b → Preserves (storageFormat type)
      (opcode.integerValue (storageFormat type) ((Term.node left).format gen) a b) new) :
    Preserves (storageFormat type)
      ((Term.operation opcode type (.node left) (.node right)).value gen words) new := by
  intro word value
  rw [Term.value, Option.bind_eq_bind, Option.bind_eq_some_iff] at value
  rcases value with ⟨a, leftValue, value⟩
  rw [Option.bind_eq_some_iff] at value
  rcases value with ⟨b, rightValue, value⟩
  exact preserves a b leftValue rightValue word value

theorem value_of_isConst (words : Words) {id : NodeId} (constant : (gen.nodes id).opcode.isConst = true) :
    (Term.node id).value gen words = some (gen.nodes id).ivalue := by
  rw [Term.value, if_pos constant]

theorem value_of_isIntConstantWithValue (words : Words) {id : NodeId} {value : BitVec 64}
    (constant : isIntConstantWithValue (gen.nodes id) value = true) :
    (Term.node id).value gen words = some value := by
  simp only [isIntConstantWithValue, isIntegralConstant, Bool.and_eq_true, beq_iff_eq] at constant
  rw [value_of_isConst words constant.1.1, constant.2]

theorem preserves_constant_left (value : (Term.node left).value gen words = some constant)
      (preserves : ∀ b, (Term.node right).value gen words = some b → Preserves (storageFormat type)
      (opcode.integerValue (storageFormat type) ((Term.node left).format gen) constant b) new) :
    Preserves (storageFormat type)
      ((Term.operation opcode type (.node left) (.node right)).value gen words) new := by
  apply preserves_operation
  intro a b leftValue rightValue
  cases value.symm.trans leftValue
  exact preserves b rightValue

theorem preserves_constant_right (value : (Term.node right).value gen words = some constant)
      (preserves : ∀ a, (Term.node left).value gen words = some a → Preserves (storageFormat type)
      (opcode.integerValue (storageFormat type) ((Term.node left).format gen) a constant) new) :
    Preserves (storageFormat type)
      ((Term.operation opcode type (.node left) (.node right)).value gen words) new := by
  apply preserves_operation
  intro a b leftValue rightValue
  cases value.symm.trans rightValue
  exact preserves a leftValue

/-- The value of an instruction after its reduction. -/
def Reduction.value (gen : Generator) (words : Words) (opcode : IROpcode) (type : TypeRecord)
    (left right : NodeId) : Reduction → Option (BitVec 64)
  | .unchanged => (Term.operation opcode type (.node left) (.node right)).value gen words
  | .replacedBy value => value.value gen words
  | .becomes opcode operand (some right) =>
    (Term.operation opcode type operand right).value gen words
  | .becomes opcode operand none => do
      let a ← operand.value gen words
      opcode.integerValue (storageFormat type) (operand.format gen) a 0

/-- A reduction keeps the value of the instruction. -/
def Reduction.Keeps (gen : Generator) (words : Words) (opcode : IROpcode) (type : TypeRecord)
    (left right : NodeId) (reduction : Reduction) : Prop :=
  Preserves (storageFormat type)
    ((Term.operation opcode type (.node left) (.node right)).value gen words)
    (reduction.value gen words opcode type left right)

theorem keeps_unchanged : Reduction.unchanged.Keeps gen words opcode type left right :=
  preserves_refl _ _

theorem reduceSub_keeps :
    (reduceSub gen left right).Keeps gen words .subi type left right := by
  unfold reduceSub
  split
  next zero =>
    apply preserves_constant_right (value_of_isIntConstantWithValue words zero)
    intro a value
    simp only [Reduction.value, value]
    apply preserves_extend_word
    rw [read_zero, sub_zero]
  next =>
    split
    next zero =>
      apply preserves_constant_left (value_of_isIntConstantWithValue words zero)
      intro b value
      simp only [Reduction.value, value, Option.bind_eq_bind, Option.bind_some]
      apply preserves_extend_extend
      rw [read_zero, zero_sub]
    next => exact keeps_unchanged

/-- The shift by the logarithm of a power of two below the width. -/
theorem shiftByLog_spec (words : Words) (shift : IROpcode) (operand : NodeId) {power : NodeId}
    (positive : 0 < type.size) (small : type.size ≤ 8)
    (isPower : isIntConstantPowerOf2 (gen.nodes power) (type.size * 8) = true) :
    ∃ constantType exponent,
      shiftByLog gen shift operand power = some (.becomes shift (.node operand)
        (some (.constant constantType (BitVec.ofNat 64 exponent)))) ∧
      exponent < (storageFormat type).bits ∧ (gen.nodes power).ivalue.toNat = 2 ^ exponent ∧
      (Term.node power).value gen words = some (gen.nodes power).ivalue := by
  have format := storageFormat_of_size positive small
  rcases isIntConstantPowerOf2_spec isPower with ⟨constant, typed, exponent, below, isPower⟩
  rcases Option.isSome_iff_exists.mp typed with ⟨constantType, typed⟩
  refine ⟨constantType, exponent, ?_, by omega, isPower, value_of_isConst words constant⟩
  rw [shiftByLog, typed, logBase2_eq isPower]
  rfl

variable {operand : Term} {a : BitVec 64}

/-- Multiplication by a power of two is a shift. -/
theorem keeps_lsli {constantType : TypeRecord} {exponent : ℕ}
    (below : exponent < (storageFormat type).bits) (value : operand.value gen words = some a)
    {product : BitVec (storageFormat type).bits}
    (same : product = (storageFormat type).read a * BitVec.twoPow _ exponent) :
    Preserves (storageFormat type) (some ((storageFormat type).extend product))
      ((Term.operation .lsli type operand
        (.constant constantType (BitVec.ofNat 64 exponent))).value gen words) := by
  have count := countBelow_log below
  rw [Term.value, value, Option.bind_eq_bind, Option.bind_some, Term.value, Option.bind_some,
    integerValue, if_pos count.1, count.2]
  apply preserves_extend_extend
  rw [same, BitVec.shiftLeft_eq_mul_twoPow]

theorem reduceMul_keeps {node : IRNode} (typed : node.type = some type) (positive : 0 < type.size)
    (small : type.size ≤ 8) :
    ∃ reduction, reduceMul gen node left right = some reduction ∧
      reduction.Keeps gen words .muli type left right := by
  unfold reduceMul
  split
  next zero =>
    have value := value_of_isIntConstantWithValue words zero
    refine ⟨_, rfl, preserves_constant_left value fun b _ => ?_⟩
    rw [Reduction.value, value]
    apply preserves_extend_word
    rw [read_zero, zero_mul]
  split
  next zero =>
    have value := value_of_isIntConstantWithValue words zero
    refine ⟨_, rfl, preserves_constant_right value fun a _ => ?_⟩
    rw [Reduction.value, value]
    apply preserves_extend_word
    rw [read_zero, mul_zero]
  split
  next one =>
    refine ⟨_, rfl, preserves_constant_left (value_of_isIntConstantWithValue words one)
      fun b value => ?_⟩
    rw [Reduction.value, value]
    apply preserves_extend_word
    rw [read_one, one_mul]
  split
  next one =>
    refine ⟨_, rfl, preserves_constant_right (value_of_isIntConstantWithValue words one)
      fun a value => ?_⟩
    rw [Reduction.value, value]
    apply preserves_extend_word
    rw [read_one, mul_one]
  simp only [typed, Option.bind_eq_bind, Option.bind_some]
  split
  next isPower =>
    rcases shiftByLog_spec words .lsli right positive small isPower with ⟨constantType, exponent, shifts, below, power, value⟩
    refine ⟨_, shifts, preserves_constant_left value fun b operand => ?_⟩
    apply keeps_lsli below operand
    rw [read_eq_twoPow power, mul_comm]
  split
  next isPower =>
    rcases shiftByLog_spec words .lsli left positive small isPower with ⟨constantType, exponent, shifts, below, power, value⟩
    refine ⟨_, shifts, preserves_constant_right value fun a operand => ?_⟩
    apply keeps_lsli below operand
    rw [read_eq_twoPow power]
  exact ⟨_, rfl, keeps_unchanged⟩

theorem keeps_lsri {constantType : TypeRecord} {exponent : ℕ}
    (below : exponent < (storageFormat type).bits) (value : operand.value gen words = some a)
    {quotient : BitVec (storageFormat type).bits}
    (same : quotient.toNat = ((storageFormat type).read a).toNat / 2 ^ exponent) :
    Preserves (storageFormat type) (some ((storageFormat type).extend quotient))
      ((Term.operation .lsri type operand
        (.constant constantType (BitVec.ofNat 64 exponent))).value gen words) := by
  have count := countBelow_log below
  rw [Term.value, value, Option.bind_eq_bind, Option.bind_some, Term.value, Option.bind_some,
    integerValue, if_pos count.1, count.2]
  apply preserves_extend_extend
  apply BitVec.eq_of_toNat_eq
  rw [same, BitVec.toNat_ushiftRight, Nat.shiftRight_eq_div_pow]

/-- A division that is not compiled for a constant. -/
theorem reduceDiv_keeps {node : IRNode} {fuel longLongSize : ℕ} (typed : node.type = some type)
    (positive : 0 < type.size) (small : type.size ≤ 8) :
    (isIntConstantWithValue (gen.nodes right) 1 ∨ isIntConstantWithValue (gen.nodes left) 0 ∨
      type.isUnsigned && isIntConstantPowerOf2 (gen.nodes right) (type.size * 8)) →
    ∃ reduction, reduceDiv fuel longLongSize gen node left right = some reduction ∧
      reduction.Keeps gen words .divi type left right := by
  intro cases
  have format := storageFormat_of_size positive small
  unfold reduceDiv
  split
  next one =>
    refine ⟨_, rfl, preserves_constant_right (value_of_isIntConstantWithValue words one)
      fun a value => ?_⟩
    rw [Reduction.value, value, integerValue, read_one, if_neg one_ne_zero_of_format]
    apply preserves_extend_word
    split
    · exact BitVec.udiv_one
    · exact BitVec.sdiv_one
  next other =>
    split
    next zero =>
      have value := value_of_isIntConstantWithValue words zero
      refine ⟨_, rfl, preserves_constant_left value fun b _ => ?_⟩
      rw [Reduction.value, value, integerValue, read_zero]
      split
      · intro _ impossible
        cases impossible
      · apply preserves_extend_word
        rw [read_zero]
        split
        · exact BitVec.zero_udiv
        · exact BitVec.zero_sdiv
    next other' =>
      have powerOf2 := (cases.resolve_left other).resolve_left other'
      rw [Bool.and_eq_true_iff] at powerOf2
      have unsigned : (storageFormat type).isUnsigned = true := format.2.trans powerOf2.1
      simp only [typed, Option.bind_eq_bind, Option.bind_some, powerOf2, Bool.and_true, if_true]
      rcases shiftByLog_spec words .lsri left positive small powerOf2.2 with
        ⟨constantType, exponent, shifts, below, power, value⟩
      refine ⟨_, shifts, preserves_constant_right value fun a operand => ?_⟩
      have divisor := toNat_read_of_power below power
      have nonzero : (storageFormat type).read (gen.nodes right).ivalue ≠ 0 := by
        intro zero
        rw [zero] at divisor
        exact absurd divisor (Nat.two_pow_pos exponent).ne
      rw [integerValue, if_neg nonzero, unsigned, if_pos rfl]
      apply keeps_lsri below operand
      rw [BitVec.toNat_udiv, divisor]

/-- The remainder by a power of two is a mask. -/
theorem reduceMod_keeps {node : IRNode} (typed : node.type = some type)
    (positive : 0 < type.size) (small : type.size ≤ 8) :
    ∃ reduction, reduceMod gen node left right = some reduction ∧
      reduction.Keeps gen words .modi type left right := by
  have format := storageFormat_of_size positive small
  unfold reduceMod
  split
  next zero =>
    have value := value_of_isIntConstantWithValue words zero
    refine ⟨_, rfl, preserves_constant_left value fun b _ => ?_⟩
    rw [Reduction.value, value, integerValue, read_zero]
    split
    · intro _ impossible
      cases impossible
    · apply preserves_extend_word
      rw [read_zero]
      split
      · exact BitVec.zero_umod
      · exact BitVec.zero_srem
  simp only [typed, Option.bind_eq_bind, Option.bind_some]
  split
  next powerOf2 =>
    rw [Bool.and_eq_true_iff] at powerOf2
    have unsigned : (storageFormat type).isUnsigned = true := format.2.trans powerOf2.1
    rcases isIntConstantPowerOf2_spec powerOf2.2 with
      ⟨constant, constantTyped, exponent, below, power⟩
    rcases Option.isSome_iff_exists.mp constantTyped with ⟨constantType, constantTyped⟩
    rw [constantTyped, Option.bind_some]
    rw [← format.1] at below
    refine ⟨_, rfl, preserves_constant_right (value_of_isConst words constant) fun a operand => ?_⟩
    have divisor := toNat_read_of_power below power
    have nonzero : (storageFormat type).read (gen.nodes right).ivalue ≠ 0 := by
      intro zero
      rw [zero] at divisor
      exact absurd divisor (Nat.two_pow_pos exponent).ne
    rw [Reduction.value, Term.value, operand, Term.value, Option.bind_eq_bind, Option.bind_some,
      Option.bind_some, integerValue, if_neg nonzero, unsigned, if_pos rfl, integerValue]
    apply preserves_extend_extend
    apply BitVec.eq_of_toNat_eq
    rw [BitVec.toNat_umod, divisor, BitVec.toNat_and, toNat_read_bitMask below power,
      Nat.and_two_pow_sub_one_eq_mod]
  exact ⟨_, rfl, keeps_unchanged⟩

section AllOnes

variable {leftType rightType : TypeRecord} (positive : 0 < type.size) (small : type.size ≤ 8)
  (leftTyped : (gen.nodes left).type = some leftType) (leftSize : leftType.size = type.size)
  (rightTyped : (gen.nodes right).type = some rightType) (rightSize : rightType.size = type.size)

include positive small leftTyped leftSize rightTyped rightSize

theorem reduceAnd_keeps : (reduceAnd gen left right).Keeps gen words .andi type left right := by
  unfold reduceAnd
  split
  next zero =>
    cases leftZero : isIntConstantWithValue (gen.nodes left) 0 with
    | true =>
      have value := value_of_isIntConstantWithValue words leftZero
      apply preserves_constant_left value
      intro b _
      rw [if_pos rfl, Reduction.value, value]
      apply preserves_extend_word
      rw [read_zero]
      exact BitVec.zero_and
    | false =>
      rw [leftZero, Bool.false_or] at zero
      have value := value_of_isIntConstantWithValue words zero
      apply preserves_constant_right value
      intro a _
      rw [if_neg (by simp), Reduction.value, value]
      apply preserves_extend_word
      rw [read_zero]
      exact BitVec.and_zero
  split
  next ones =>
    have spec := isIntAllOnes_spec positive small ones leftTyped leftSize
    apply preserves_constant_left (value_of_isConst words spec.1)
    intro b value
    rw [Reduction.value, value]
    apply preserves_extend_word
    rw [spec.2, BitVec.allOnes_and]
  split
  next ones =>
    have spec := isIntAllOnes_spec positive small ones rightTyped rightSize
    apply preserves_constant_right (value_of_isConst words spec.1)
    intro a value
    rw [Reduction.value, value]
    apply preserves_extend_word
    rw [spec.2, BitVec.and_allOnes]
  exact keeps_unchanged

theorem reduceOr_keeps : (reduceOr gen left right).Keeps gen words .ori type left right := by
  unfold reduceOr
  split
  next zero =>
    apply preserves_constant_left (value_of_isIntConstantWithValue words zero)
    intro b value
    rw [Reduction.value, value]
    apply preserves_extend_word
    rw [read_zero]
    exact BitVec.zero_or
  split
  next zero =>
    apply preserves_constant_right (value_of_isIntConstantWithValue words zero)
    intro a value
    rw [Reduction.value, value]
    apply preserves_extend_word
    rw [read_zero]
    exact BitVec.or_zero
  split
  next ones =>
    cases leftOnes : isIntAllOnes (gen.nodes left) with
    | true =>
      have spec := isIntAllOnes_spec positive small leftOnes leftTyped leftSize
      have value := value_of_isConst words spec.1
      apply preserves_constant_left value
      intro b _
      rw [if_pos rfl, Reduction.value, value]
      apply preserves_extend_word
      rw [spec.2, BitVec.allOnes_or]
    | false =>
      rw [leftOnes, Bool.false_or] at ones
      have spec := isIntAllOnes_spec positive small ones rightTyped rightSize
      have value := value_of_isConst words spec.1
      apply preserves_constant_right value
      intro a _
      rw [if_neg (by simp), Reduction.value, value]
      apply preserves_extend_word
      rw [spec.2, BitVec.or_allOnes]
  exact keeps_unchanged

end AllOnes

theorem reduceXor_keeps : (reduceXor gen left right).Keeps gen words .xori type left right := by
  unfold reduceXor
  split
  next zero =>
    apply preserves_constant_left (value_of_isIntConstantWithValue words zero)
    intro b value
    rw [Reduction.value, value]
    apply preserves_extend_word
    rw [read_zero]
    exact BitVec.zero_xor
  split
  next zero =>
    apply preserves_constant_right (value_of_isIntConstantWithValue words zero)
    intro a value
    rw [Reduction.value, value]
    apply preserves_extend_word
    rw [read_zero]
    exact BitVec.xor_zero
  exact keeps_unchanged

theorem reduceCompare_keeps {node : IRNode} (typed : node.type = some type) {outcome : BitVec 64}
    (reflexive : ∀ a, opcode.integerValue (storageFormat type) ((Term.node left).format gen) a a =
      some outcome) :
    ∃ reduction, reduceCompare node left right outcome = some reduction ∧
      reduction.Keeps gen words opcode type left right := by
  unfold reduceCompare
  split
  next same =>
    rw [typed]
    refine ⟨_, rfl, preserves_operation fun a b leftValue rightValue => ?_⟩
    rw [← same] at rightValue
    cases leftValue.symm.trans rightValue
    rw [reflexive]
    exact preserves_refl _ _
  next => exact ⟨_, rfl, keeps_unchanged⟩

end Rules

/-! ## Nested sums -/

section NestedSums

variable [Compiler] {gen : Generator} {words : Words} {type : TypeRecord} {left right : NodeId}

omit [Compiler] in
theorem constOperand_spec {inputs : List NodeId} {constant other : NodeId}
    (found : constOperand gen inputs = some (constant, other)) :
    (inputs = [constant, other] ∨ inputs = [other, constant]) ∧
      (gen.nodes constant).opcode.isConst = true := by
  unfold constOperand at found
  split at found
  next =>
    split_ifs at found with leftConst rightConst
    · cases found
      simp only [isIntConst, Bool.and_eq_true] at leftConst
      exact ⟨.inl rfl, leftConst.1.1.1⟩
    · cases found
      simp only [isIntConst, Bool.and_eq_true] at rightConst
      exact ⟨.inr rfl, rightConst.1.1.1⟩
  next => cases found

omit [Compiler] in
theorem exists_operands {inputs : List NodeId} {constant other : NodeId}
    (found : constOperand gen inputs = some (constant, other)) :
    ∃ first second, inputs = [first, second] := by
  rcases (constOperand_spec found).1 with same | same
  · exact ⟨_, _, same⟩
  · exact ⟨_, _, same⟩

/-- The sums that an instruction reads have the values that their operands give. -/
def OperandSums (gen : Generator) (words : Words) (inputs : List NodeId) : Prop :=
  ∀ id ∈ inputs, ∀ left right type, (gen.nodes id).opcode = .addi → (gen.nodes id).dest = none →
    (gen.nodes id).inputs = [left, right] → (gen.nodes id).type = some type →
      words id = (Term.operation .addi type (.node left) (.node right)).value gen words

/-- The operands of an instruction have the size of its type. -/
def OperandsSized (gen : Generator) (type : TypeRecord) (inputs : List NodeId) : Prop :=
  ∀ id ∈ inputs, ∃ operandType, (gen.nodes id).type = some operandType ∧
    operandType.size = type.size

/-- The value of a sum with a constant on either side. -/
theorem sum_value {inputs : List NodeId} {constant other : NodeId}
    (found : constOperand gen inputs = some (constant, other))
    (operands : inputs = [left, right]) {word : BitVec 64}
    (value : (Term.operation .addi type (.node left) (.node right)).value gen words = some word) :
    ∃ a, (Term.node other).value gen words = some a ∧
      word = (storageFormat type).canonicalize (a + (gen.nodes constant).ivalue) := by
  have spec := constOperand_spec found
  have constantValue := value_of_isConst words spec.2
  rw [Term.value, Option.bind_eq_bind, Option.bind_eq_some_iff] at value
  rcases value with ⟨a, leftValue, value⟩
  rw [Option.bind_eq_some_iff] at value
  rcases value with ⟨b, rightValue, value⟩
  have sum : word = (storageFormat type).canonicalize (a + b) := by
    rw [canonicalize, read_add]
    exact (Option.some.inj value).symm
  rcases spec.1 with same | same
  · cases operands.symm.trans same
    cases constantValue.symm.trans leftValue
    exact ⟨b, rightValue, by rw [sum, add_comm]⟩
  · cases operands.symm.trans same
    cases constantValue.symm.trans rightValue
    exact ⟨a, leftValue, sum⟩

section

variable (typeEqual : TypeRecord → TypeRecord → Bool) {node : IRNode}
  (typed : node.type = some type) (positive : 0 < type.size) (small : type.size ≤ 8)
  (operands : node.inputs = [left, right]) (sums : OperandSums gen words node.inputs)
  (sized : OperandsSized gen type node.inputs)

include typeEqual typed positive small operands sums sized

theorem foldNestedAdd_keeps :
    (foldNestedAdd typeEqual gen node).Keeps gen words .addi type left right := by
  unfold foldNestedAdd
  cases found : constOperand gen node.inputs with
  | none => exact keeps_unchanged
  | some pair =>
    rcases pair with ⟨outer, innerId⟩
    have inside : innerId ∈ node.inputs := by
      rcases (constOperand_spec found).1 with same | same <;> simp [same]
    rcases sized innerId inside with ⟨innerType, innerTyped, sameSize⟩
    simp only [innerTyped, typed]
    split
    next => exact keeps_unchanged
    next isSum =>
      cases foundInner : constOperand gen (gen.nodes innerId).inputs with
      | none => exact keeps_unchanged
      | some pair =>
        rcases pair with ⟨innerConst, base⟩
        simp only [Bool.or_eq_true, bne_iff_ne, not_or, not_not, Bool.not_eq_true,
          Option.isSome_eq_false_iff, Option.isNone_iff_eq_none] at isSum
        intro word value
        rcases sum_value found operands value with ⟨middle, middleValue, wordEq⟩
        rcases exists_operands foundInner with ⟨first, second, innerOperands⟩
        have innerValue := sums innerId inside first second innerType isSum.1.1 isSum.1.2
          innerOperands innerTyped
        have computed : words innerId = some middle := by
          rw [Term.value, isSum.1.1] at middleValue
          exact middleValue
        rcases sum_value foundInner innerOperands (innerValue.symm.trans computed) with
          ⟨x, baseValue, middleEq⟩
        have bits : (storageFormat innerType).bits = (storageFormat type).bits := by
          rw [(storageFormat_of_size positive small).1,
            (storageFormat_of_size (by omega) (by omega)).1, sameSize]
        have low : (storageFormat type).read word = (storageFormat type).read x +
            (storageFormat type).read (wrapToType type
              ((gen.nodes outer).ivalue + (gen.nodes innerConst).ivalue)) := by
          rw [wordEq, read_canonicalize, read_add, middleEq, read_canonicalize_of_bits bits,
            read_wrapToType positive small, read_add, read_add, add_assoc, add_comm ((storageFormat
            type).read (gen.nodes outer).ivalue)]
        dsimp only
        generalize wrapToType type ((gen.nodes outer).ivalue + (gen.nodes innerConst).ivalue) =
          sum at low
        split
        next zero =>
          rw [zero, read_zero, add_zero] at low
          exact ⟨x, baseValue, low⟩
        next =>
          have newValue : (Reduction.becomes .addi (.node base)
              (some (.constant type sum))).value gen words .addi type left right =
              some ((storageFormat type).extend ((storageFormat type).read x +
                (storageFormat type).read sum)) := by
            rw [Reduction.value, Term.value, baseValue]
            rfl
          exact ⟨_, newValue, by rw [SameAt, read_extend, low]⟩

theorem reduceAdd_keeps :
    (reduceAdd typeEqual gen node left right).Keeps gen words .addi type left right := by
  unfold reduceAdd
  split
  next zero =>
    apply preserves_constant_left (value_of_isIntConstantWithValue words zero)
    intro b value
    rw [Reduction.value, value]
    apply preserves_extend_word
    rw [read_zero, zero_add]
  split
  next zero =>
    apply preserves_constant_right (value_of_isIntConstantWithValue words zero)
    intro a value
    rw [Reduction.value, value]
    apply preserves_extend_word
    rw [read_zero, add_zero]
  exact foldNestedAdd_keeps typeEqual typed positive small operands sums sized

end

end NestedSums

section Instructions

variable [Compiler] {gen : Generator} {words : Words} {type : TypeRecord} {id left right : NodeId}

/-- The instruction is left to the division by a constant. -/
def dividesByConstant (gen : Generator) (node : IRNode) (left right : NodeId) : Bool :=
  node.opcode == .divi && !isIntConstantWithValue (gen.nodes right) 1 &&
    !isIntConstantWithValue (gen.nodes left) 0 &&
    !(node.type.any TypeRecord.isUnsigned && node.type.any fun type =>
      isIntConstantPowerOf2 (gen.nodes right) (type.size * 8))

/-- Every instruction that is not left to the division by a constant is reduced to one
with the same value at the width of its type. The reduction ends. -/
theorem reduceNodeStrength_keeps (typeEqual : TypeRecord → TypeRecord → Bool)
    (fuel longLongSize : ℕ) (typed : (gen.nodes id).type = some type) (positive : 0 < type.size)
    (small : type.size ≤ 8) (operands : (gen.nodes id).inputs = [left, right])
    (sized : (gen.nodes id).opcode ∈ [.addi, .andi, .ori] → OperandsSized gen type (gen.nodes
      id).inputs) (sums : OperandSums gen words (gen.nodes id).inputs)
    (other : dividesByConstant gen (gen.nodes id) left right = false) :
    ∃ reduction, reduceNodeStrength typeEqual fuel longLongSize gen id = some reduction ∧
      reduction.Keeps gen words (gen.nodes id).opcode type left right := by
  unfold reduceNodeStrength
  dsimp only
  split
  · exact ⟨_, rfl, keeps_unchanged⟩
  split
  · exact ⟨_, rfl, keeps_unchanged⟩
  simp only [operands] at sized ⊢
  have inLeft : left ∈ [left, right] := List.mem_cons_self
  have inRight : right ∈ [left, right] := List.mem_cons_of_mem _ List.mem_cons_self
  split
  next opcode =>
    rw [opcode] at sized ⊢
    rw [← operands] at sized
    exact ⟨_, rfl, reduceAdd_keeps typeEqual typed positive small operands sums (sized (by decide))⟩
  next opcode =>
    rw [opcode]
    exact ⟨_, rfl, reduceSub_keeps⟩
  next opcode =>
    rw [opcode]
    exact reduceMul_keeps typed positive small
  next opcode =>
    rw [opcode]
    apply reduceDiv_keeps typed positive small
    simp only [dividesByConstant, opcode, typed, Option.any_some, beq_self_eq_true, Bool.true_and,
      Bool.and_eq_false_iff, Bool.not_eq_false'] at other
    rw [or_assoc] at other
    exact other
  next opcode =>
    rw [opcode]
    exact reduceMod_keeps typed positive small
  next opcode =>
    rw [opcode] at sized ⊢
    rcases sized (by decide) left inLeft with ⟨leftType, leftTyped, leftSize⟩
    rcases sized (by decide) right inRight with ⟨rightType, rightTyped, rightSize⟩
    exact ⟨_, rfl, reduceAnd_keeps positive small leftTyped leftSize rightTyped rightSize⟩
  next opcode =>
    rw [opcode] at sized ⊢
    rcases sized (by decide) left inLeft with ⟨leftType, leftTyped, leftSize⟩
    rcases sized (by decide) right inRight with ⟨rightType, rightTyped, rightSize⟩
    exact ⟨_, rfl, reduceOr_keeps positive small leftTyped leftSize rightTyped rightSize⟩
  next opcode =>
    rw [opcode]
    exact ⟨_, rfl, reduceXor_keeps⟩
  next opcode =>
    rw [opcode]
    apply reduceCompare_keeps typed
    intro a
    rw [integerValue, beq_self_eq_true]
    rfl
  next opcode =>
    rw [opcode]
    apply reduceCompare_keeps typed
    intro a
    rw [integerValue, bne_self_eq_false]
    rfl
  next => exact ⟨_, rfl, keeps_unchanged⟩

end Instructions

section Examples

/-- `int` with 4 bytes. -/
def intType : TypeRecord where
  declarator := .primitive
  type := kTypeInt
  size := 4

/-- `x + 3 + 4` for a loaded `x`. -/
def nestedSum : Generator where
  nodes
    | 0 => { opcode := .load32, type := some intType }
    | 1 => { opcode := .const32, type := some intType, ivalue := 3 }
    | 2 => { opcode := .addi, type := some intType, inputs := [0, 1] }
    | 3 => { opcode := .const32, type := some intType, ivalue := 4 }
    | _ => { opcode := .addi, type := some intType, inputs := [2, 3] }
  basicBlocks := []
  entryBlock := 0

/-- The words of the sums for the largest `int`. -/
def nestedSumWords : Words
  | 0 => some 0x7fffffff
  | 2 => some 0xffffffff80000002
  | _ => none

/-- The sum of a sum is reduced to one with the sum of the constants. -/
theorem reduceNodeStrength_keeps_nestedSum :
    ∃ (_ : Compiler) (reduction : Reduction),
      reduceNodeStrength (· == ·) 0 8 nestedSum 4 = some reduction ∧
        reduction.Keeps nestedSum nestedSumWords .addi intType 2 3 := by
  let _ : Compiler := ⟨true⟩
  have typed (id : NodeId) : (nestedSum.nodes id).type = some intType := by
    unfold nestedSum
    dsimp only
    split <;> rfl
  have sums : OperandSums nestedSum nestedSumWords [2, 3] := by
    intro id inside left right type isSum _ operands typed
    rcases List.mem_pair.mp inside with rfl | rfl
    · cases operands
      cases typed
      decide
    · cases isSum
  have sized : OperandsSized nestedSum intType [2, 3] :=
    fun id _ => ⟨intType, typed id, rfl⟩
  exact ⟨_, reduceNodeStrength_keeps (· == ·) 0 8 (typed 4) (by decide) (by decide) rfl
    (fun _ => sized) sums (by decide)⟩

end Examples

end DaveCC.Optimization.StrengthReduction
