import DaveCC.Optimization.IntegerTerms
import DaveCC.Arith.FormatOrder
import DaveCC.Arith.NestedDivision

/-!
# Reassociation of constants

The propagations of `constprop.c` that turn two operations with constants into one,
with the checked arithmetic of `checked_math.h`. Unchecked products wrap, as on
every host.
-/

namespace DaveCC.Optimization.Reassociation

open DaveCC.Arith DaveCC.Backend

def int64Max : BitVec 64 := 0x7fffffffffffffff#64

def int64Min : BitVec 64 := 0x8000000000000000#64

/-- `Int64AddOverflow`, whose result is absent on overflow. -/
def int64AddOverflow (left right : BitVec 64) : Option (BitVec 64) :=
  if (0#64).slt right && (int64Max - right).slt left ||
      right.slt 0#64 && left.slt (int64Min - right) then none
  else some (left + right)

def int64SubOverflow (left right : BitVec 64) : Option (BitVec 64) :=
  if (0#64).slt right && left.slt (int64Min + right) ||
      right.slt 0#64 && (int64Max + right).slt left then none
  else some (left - right)

def int64MulOverflow (left right : BitVec 64) : Option (BitVec 64) :=
  if left = 0 ∨ right = 0 then some 0
  else if left = -1#64 ∧ right = int64Min ∨ right = -1#64 ∧ left = int64Min then none
  else if (0#64).slt left then
    if (0#64).slt right && (int64Max.sdiv right).slt left ||
        right.slt 0#64 && right.slt (int64Min.sdiv left) then none
    else some (left * right)
  else if (0#64).slt right && left.slt (int64Min.sdiv right) ||
      right.slt 0#64 && left.slt (int64Max.sdiv right) then none
  else some (left * right)

/-- Two operations with a constant on the right, the first of which only the second
one reads. -/
structure ConstantChain where
  source : NodeId
  base : NodeId
  opcode : IROpcode
  inner : BitVec 64
  outer : BitVec 64
  constantType : Option TypeRecord
  deriving DecidableEq, Repr

/-- The checks that the propagations share. -/
def constantChain (gen : Generator) (id : NodeId) : Option ConstantChain :=
  match (gen.nodes id).inputs with
  | source :: right :: _ =>
    match (gen.nodes source).inputs with
    | base :: constant :: _ =>
      if (gen.nodes right).opcode.isIntConst && (gen.nodes source).outputs.length == 1 &&
          (gen.nodes constant).opcode.isIntConst && !irCheckpointBetween gen source id then
        some
          { source, base
            opcode := (gen.nodes source).opcode
            inner := (gen.nodes constant).ivalue
            outer := (gen.nodes right).ivalue
            constantType := (gen.nodes right).type }
      else none
    | _ => none
  | _ => none

/-- What the second operation becomes. The first one is removed. -/
structure Rewritten where
  opcode : IROpcode
  operand : NodeId
  constantType : Option TypeRecord
  constant : BitVec 64
  removed : NodeId
  deriving DecidableEq, Repr

def ConstantChain.combined (chain : ConstantChain) (opcode : IROpcode) (constant : BitVec 64) :
    Rewritten where
  opcode := opcode
  operand := chain.base
  constantType := chain.constantType
  constant := constant
  removed := chain.source

/-- A constant that is not negative, with the operation that it needs. -/
def ConstantChain.combinedSize (chain : ConstantChain) (opcode opposite : IROpcode)
    (value : BitVec 64) : Option Rewritten :=
  if value = int64Min then none
  else if value.slt 0#64 then some (chain.combined opposite (-value))
  else some (chain.combined opcode value)

def propagateAddConstant (chain : ConstantChain) : Option Rewritten :=
  match chain.opcode with
  | .addi => (int64AddOverflow chain.inner chain.outer).bind (chain.combinedSize .addi .subi)
  | .subi => (int64SubOverflow chain.outer chain.inner).bind (chain.combinedSize .addi .subi)
  | _ => none

def propagateSubConstant (chain : ConstantChain) : Option Rewritten :=
  match chain.opcode with
  | .addi => (int64SubOverflow chain.outer chain.inner).bind (chain.combinedSize .subi .addi)
  | .subi => (int64AddOverflow chain.outer chain.inner).bind (chain.combinedSize .subi .addi)
  | _ => none

def propConstOp (opcode : IROpcode) (op : BitVec 64 → BitVec 64 → BitVec 64)
    (chain : ConstantChain) : Option Rewritten :=
  if chain.opcode = opcode then some (chain.combined opcode (op chain.inner chain.outer))
  else none

def propagateDivConstant (chain : ConstantChain) : Option Rewritten :=
  if chain.opcode ≠ .divi then none
  else if chain.inner = 0 ∨ chain.outer = 0 then none
  else do
    let combined ← int64MulOverflow chain.inner chain.outer
    if combined = 0 then none else some (chain.combined .divi combined)

def shiftWidth (type : Option TypeRecord) : Nat :=
  type.elim 0 fun type => type.size * 8

def propagateShiftConstant (type : Option TypeRecord) (opcode : IROpcode)
    (chain : ConstantChain) : Option Rewritten :=
  if chain.opcode ≠ opcode then none
  else if chain.inner.slt 0#64 || chain.outer.slt 0#64 then none
  else do
    let combined ← int64AddOverflow chain.inner chain.outer
    if shiftWidth type ≤ combined.toInt then none else some (chain.combined opcode combined)

/-- What `PropagateConstants` does with an instruction whose operands are not all
constants. -/
def propagateConstant (gen : Generator) (id : NodeId) : Option Rewritten :=
  let inst := gen.nodes id
  if inst.dest.isSome then none
  else do
    let chain ← constantChain gen id
    match inst.opcode with
    | .addi => propagateAddConstant chain
    | .subi => propagateSubConstant chain
    | .muli => propConstOp .muli (· * ·) chain
    | .divi => propagateDivConstant chain
    | .xori => propConstOp .xori (· ^^^ ·) chain
    | .andi => propConstOp .andi (· &&& ·) chain
    | .ori => propConstOp .ori (· ||| ·) chain
    | .lsri => propagateShiftConstant inst.type .lsri chain
    | .asri => propagateShiftConstant inst.type .asri chain
    | .lsli => propagateShiftConstant inst.type .lsli chain
    | _ => none

section Values

variable [Compiler] (gen : Generator) (id : NodeId) (x : BitVec 64)

/-- The value of the two operations for a value of the chain's first operand. -/
def ConstantChain.value (chain : ConstantChain) : Option (BitVec 64) := do
  let inner ← chain.opcode.integerValue ((Term.node chain.source).format gen)
    ((Term.node chain.base).format gen) x chain.inner
  (gen.nodes id).opcode.integerValue ((Term.node id).format gen)
    ((Term.node chain.source).format gen) inner chain.outer

/-- The value of the one operation for a value of the same operand. -/
def Rewritten.value (rewritten : Rewritten) : Option (BitVec 64) :=
  rewritten.opcode.integerValue ((Term.node id).format gen)
    ((Term.node rewritten.operand).format gen) x rewritten.constant

/-- For every value of the operand, the one operation has the value of the two. -/
def ConstantChain.Reassociates (chain : ConstantChain) (rewritten : Rewritten) : Prop :=
  rewritten.operand = chain.base ∧
    ∀ x, Preserves ((Term.node id).format gen) (chain.value gen id x) (rewritten.value gen id x)

end Values

end DaveCC.Optimization.Reassociation

/-!
## Which reassociations preserve the value

Sums, products, bit operations and shifts are reassociated without a change. Two
divisions are one only where the product of the divisors does not wrap at the width
of their type.
-/

namespace DaveCC.Optimization.Reassociation

open DaveCC.Arith DaveCC.Backend

section Preserved

variable {format : IntFormat} {left right : BitVec format.bits}

theorem preserves_extend_iff :
    Preserves format (some (format.extend left)) (some (format.extend right)) ↔ left = right := by
  constructor
  · intro preserves
    rcases preserves _ rfl with ⟨other, same, bits⟩
    cases same
    rwa [SameAt, IntFormat.read_extend, IntFormat.read_extend] at bits
  · intro same word value
    exact ⟨_, rfl, by rw [← Option.some.inj value, same, SameAt]⟩

theorem preserves_extend (same : left = right) :
    Preserves format (some (format.extend left)) (some (format.extend right)) :=
  preserves_extend_iff.mpr same

theorem preserves_none (new : Option (BitVec 64)) : Preserves format none new :=
  fun _ value => nomatch value

end Preserved

theorem int64AddOverflow_eq {left right value : BitVec 64}
    (added : int64AddOverflow left right = some value) : value = left + right := by
  unfold int64AddOverflow at added
  split at added
  · cases added
  · exact (Option.some.inj added).symm

theorem int64SubOverflow_eq {left right value : BitVec 64}
    (subtracted : int64SubOverflow left right = some value) : value = left - right := by
  unfold int64SubOverflow at subtracted
  split at subtracted
  · cases subtracted
  · exact (Option.some.inj subtracted).symm

theorem int64MulOverflow_eq {left right value : BitVec 64}
    (multiplied : int64MulOverflow left right = some value) : value = left * right := by
  unfold int64MulOverflow at multiplied
  split_ifs at multiplied with zero
  · rcases zero with rfl | rfl
    · rw [← Option.some.inj multiplied, zero_mul]
    · rw [← Option.some.inj multiplied, mul_zero]
  · exact (Option.some.inj multiplied).symm
  · exact (Option.some.inj multiplied).symm

/-- The checked sum of two numbers that are not negative is their sum. -/
theorem toInt_int64AddOverflow {left right value : BitVec 64} (nonneg : 0 ≤ left.toInt)
    (nonneg' : 0 ≤ right.toInt) (added : int64AddOverflow left right = some value) :
    value.toInt = left.toInt + right.toInt := by
  rw [int64AddOverflow_eq added]
  unfold int64AddOverflow at added
  have most : int64Max.toInt = 2 ^ 63 - 1 := rfl
  have zero : (0#64).toInt = 0 := rfl
  have rightBound := BitVec.toInt_lt (x := right)
  have leftBound := BitVec.toInt_lt (x := left)
  have room : (int64Max - right).toInt = 2 ^ 63 - 1 - right.toInt := by
    rw [BitVec.toInt_sub, most, Int.bmod_eq_of_le (by omega) (by omega)]
  split at added
  · cases added
  next inside =>
    simp only [BitVec.slt, zero, room, Bool.or_eq_true, Bool.and_eq_true, decide_eq_true_eq,
      not_or, not_and] at inside
    rw [BitVec.toInt_add, Int.bmod_eq_of_le (by omega) (by omega)]

section Sums

variable {format : IntFormat} {chain : ConstantChain} {rewritten : Rewritten} {x : BitVec 64}

/-- What an addition or a subtraction of a constant adds. -/
def contribution (format : IntFormat) (opcode : IROpcode) (constant : BitVec 64) :
    BitVec format.bits :=
  match opcode with
  | .subi => -format.read constant
  | _ => format.read constant

theorem integerValue_sum {opcode : IROpcode} (sum : opcode = .addi ∨ opcode = .subi)
    (left : IntFormat) (x constant : BitVec 64) :
    opcode.integerValue format left x constant =
      some (format.extend (format.read x + contribution format opcode constant)) := by
  rcases sum with rfl | rfl
  · rfl
  · rw [IROpcode.integerValue, contribution, ← sub_eq_add_neg]

/-- A constant whose sign moved to the operation. -/
theorem combinedSize_spec (format : IntFormat) {opcode opposite : IROpcode} {value : BitVec 64}
    (opposites : opcode = .addi ∧ opposite = .subi ∨ opcode = .subi ∧ opposite = .addi)
    (combined : chain.combinedSize opcode opposite value = some rewritten) :
    rewritten.operand = chain.base ∧ (rewritten.opcode = .addi ∨ rewritten.opcode = .subi) ∧
      contribution format rewritten.opcode rewritten.constant =
        contribution format opcode value := by
  unfold ConstantChain.combinedSize at combined
  split_ifs at combined
  · cases combined
    rcases opposites with ⟨rfl, rfl⟩ | ⟨rfl, rfl⟩
    · refine ⟨rfl, .inr rfl, ?_⟩
      simp only [ConstantChain.combined, contribution, IntFormat.read_neg, neg_neg]
    · refine ⟨rfl, .inl rfl, ?_⟩
      simp only [ConstantChain.combined, contribution, IntFormat.read_neg]
  · cases combined
    rcases opposites with ⟨rfl, rfl⟩ | ⟨rfl, rfl⟩
    · exact ⟨rfl, .inl rfl, rfl⟩
    · exact ⟨rfl, .inr rfl, rfl⟩

theorem propagateAddConstant_spec (format : IntFormat)
    (propagated : propagateAddConstant chain = some rewritten) :
    rewritten.operand = chain.base ∧ (chain.opcode = .addi ∨ chain.opcode = .subi) ∧
      (rewritten.opcode = .addi ∨ rewritten.opcode = .subi) ∧
      contribution format rewritten.opcode rewritten.constant =
        contribution format chain.opcode chain.inner + contribution format .addi chain.outer := by
  unfold propagateAddConstant at propagated
  split at propagated
  next added =>
    rcases Option.bind_eq_some_iff.mp propagated with ⟨value, checked, combined⟩
    have spec := combinedSize_spec format (.inl ⟨rfl, rfl⟩) combined
    rw [added]
    refine ⟨spec.1, .inl rfl, spec.2.1, spec.2.2.trans ?_⟩
    rw [int64AddOverflow_eq checked]
    exact format.read_add _ _
  next subtracted =>
    rcases Option.bind_eq_some_iff.mp propagated with ⟨value, checked, combined⟩
    have spec := combinedSize_spec format (.inl ⟨rfl, rfl⟩) combined
    rw [subtracted]
    refine ⟨spec.1, .inr rfl, spec.2.1, spec.2.2.trans ?_⟩
    rw [int64SubOverflow_eq checked]
    exact (format.read_sub _ _).trans (sub_eq_neg_add _ _)
  next => cases propagated

theorem propagateSubConstant_spec (format : IntFormat)
    (propagated : propagateSubConstant chain = some rewritten) :
    rewritten.operand = chain.base ∧ (chain.opcode = .addi ∨ chain.opcode = .subi) ∧
      (rewritten.opcode = .addi ∨ rewritten.opcode = .subi) ∧
      contribution format rewritten.opcode rewritten.constant =
        contribution format chain.opcode chain.inner + contribution format .subi chain.outer := by
  unfold propagateSubConstant at propagated
  split at propagated
  next added =>
    rcases Option.bind_eq_some_iff.mp propagated with ⟨value, checked, combined⟩
    have spec := combinedSize_spec format (.inr ⟨rfl, rfl⟩) combined
    rw [added]
    refine ⟨spec.1, .inl rfl, spec.2.1, spec.2.2.trans ?_⟩
    rw [int64SubOverflow_eq checked]
    simp only [contribution, IntFormat.read_sub, neg_sub]
    exact sub_eq_add_neg _ _
  next subtracted =>
    rcases Option.bind_eq_some_iff.mp propagated with ⟨value, checked, combined⟩
    have spec := combinedSize_spec format (.inr ⟨rfl, rfl⟩) combined
    rw [subtracted]
    refine ⟨spec.1, .inr rfl, spec.2.1, spec.2.2.trans ?_⟩
    rw [int64AddOverflow_eq checked]
    simp only [contribution, IntFormat.read_add, neg_add]
    exact add_comm _ _
  next => cases propagated

/-- A sum of two constants. -/
theorem sums_preserve {outer : IROpcode} (isSum : outer = .addi ∨ outer = .subi)
    (inner : chain.opcode = .addi ∨ chain.opcode = .subi)
    (opcode : rewritten.opcode = .addi ∨ rewritten.opcode = .subi)
    (sum : contribution format rewritten.opcode rewritten.constant =
      contribution format chain.opcode chain.inner + contribution format outer chain.outer)
    (left left' : IntFormat) :
    Preserves format
      ((chain.opcode.integerValue format left x chain.inner).bind fun word =>
        outer.integerValue format format word chain.outer)
      (rewritten.opcode.integerValue format left' x rewritten.constant) := by
  rw [integerValue_sum inner, Option.bind_some, integerValue_sum isSum, integerValue_sum opcode]
  apply preserves_extend
  rw [IntFormat.read_extend, sum, add_assoc]

end Sums

/-! ## Other operations -/

section Operations

variable {format : IntFormat} {chain : ConstantChain} {rewritten : Rewritten} {x : BitVec 64}

/-- An associative operation that is the same on words and on their low bits. -/
theorem propConstOp_preserves {opcode : IROpcode} {op : BitVec 64 → BitVec 64 → BitVec 64}
    {narrow : BitVec format.bits → BitVec format.bits → BitVec format.bits}
    (value : ∀ left x constant, opcode.integerValue format left x constant =
      some (format.extend (narrow (format.read x) (format.read constant))))
    (reads : ∀ a b, format.read (op a b) = narrow (format.read a) (format.read b))
    (associative : ∀ x a b, narrow (narrow x a) b = narrow x (narrow a b))
    (propagated : propConstOp opcode op chain = some rewritten) (left left' : IntFormat) :
    rewritten.operand = chain.base ∧ Preserves format
      ((chain.opcode.integerValue format left x chain.inner).bind fun word =>
        opcode.integerValue format format word chain.outer)
      (rewritten.opcode.integerValue format left' x rewritten.constant) := by
  unfold propConstOp at propagated
  split at propagated
  next same =>
    cases propagated
    refine ⟨rfl, ?_⟩
    rw [same, ConstantChain.combined, value, Option.bind_some, value, value]
    apply preserves_extend
    rw [IntFormat.read_extend, reads, associative]
  next => cases propagated

theorem natCast_toNat_eq_toInt {word : BitVec 64} (nonneg : 0 ≤ word.toInt) :
    (word.toNat : ℤ) = word.toInt := by
  have toInt := BitVec.toInt_eq_toNat_cond word
  split at toInt <;> omega

/-- A shift by two counts. -/
theorem propagateShiftConstant_preserves {opcode : IROpcode} {type : TypeRecord}
    (bits : type.size * 8 = format.bits) {shift : BitVec format.bits → ℕ → BitVec format.bits}
      (value : ∀ left x count, opcode.integerValue format left x count = if IROpcode.countBelow
      format count then some (format.extend (shift (format.read x) count.toNat)) else none)
    (twice : ∀ x a b, shift (shift x a) b = shift x (a + b))
    (propagated : propagateShiftConstant (some type) opcode chain = some rewritten)
    (left left' : IntFormat) :
    rewritten.operand = chain.base ∧ Preserves format
      ((chain.opcode.integerValue format left x chain.inner).bind fun word =>
        opcode.integerValue format format word chain.outer)
      (rewritten.opcode.integerValue format left' x rewritten.constant) := by
  unfold propagateShiftConstant at propagated
  split_ifs at propagated with other negative
  rw [Option.bind_eq_bind, Option.bind_eq_some_iff] at propagated
  rcases propagated with ⟨combined, added, propagated⟩
  split_ifs at propagated with large
  cases propagated
  refine ⟨rfl, ?_⟩
  have zero : (0#64).toInt = 0 := rfl
  simp only [BitVec.slt, zero, Bool.or_eq_true, decide_eq_true_eq, not_or, not_lt] at negative
  have sum := toInt_int64AddOverflow negative.1 negative.2 added
  rw [shiftWidth, Option.elim_some, bits] at large
  have inner : IROpcode.countBelow format chain.inner := ⟨negative.1, by omega⟩
  have outer : IROpcode.countBelow format chain.outer := ⟨negative.2, by omega⟩
  have both : IROpcode.countBelow format combined := ⟨by omega, by omega⟩
  have counts : combined.toNat = chain.inner.toNat + chain.outer.toNat := by
    have innerNat := natCast_toNat_eq_toInt negative.1
    have outerNat := natCast_toNat_eq_toInt negative.2
    have combinedNat := natCast_toNat_eq_toInt both.1
    omega
  rw [not_not.mp other, ConstantChain.combined, value, if_pos inner, Option.bind_some, value,
    if_pos outer, value, if_pos both]
  apply preserves_extend
  rw [IntFormat.read_extend, twice, counts]

end Operations

section Divisions

variable {format : IntFormat} {chain : ConstantChain} {rewritten : Rewritten}

/-- The two divisions are one at the width of their type, or they have no value. -/
def DivisorsCombine (format : IntFormat) (inner outer : BitVec 64) : Prop :=
  format.number inner = 0 ∨ format.number outer = 0 ∨
    if format.isUnsigned then format.number inner * format.number outer < 2 ^ format.bits
    else SignedDivisorsCombine format.bits (format.number inner) (format.number outer)

instance (format : IntFormat) (inner outer : BitVec 64) :
    Decidable (DivisorsCombine format inner outer) :=
  inferInstanceAs (Decidable (_ ∨ _ ∨ ite _ _ _))

/-- The quotient of a format. -/
def quotient (format : IntFormat) (x divisor : BitVec format.bits) : BitVec format.bits :=
  if format.isUnsigned then x / divisor else x.sdiv divisor

theorem integerValue_divi (left : IntFormat) (x divisor : BitVec 64) :
    IROpcode.divi.integerValue format left x divisor = if format.read divisor = 0 then none
      else some (format.extend (quotient format (format.read x) (format.read divisor))) :=
  rfl

theorem number_eq_zero_iff (word : BitVec 64) : format.number word = 0 ↔ format.read word = 0 := by
  unfold IntFormat.number
  split
  · norm_cast
    exact BitVec.toNat_inj (y := 0)
  · rw [← BitVec.toInt_zero, BitVec.toInt_inj]
    rfl

/-- Both divisions have the same value for every dividend. -/
theorem quotient_quotient_iff (wide : 2 ≤ format.bits) {inner outer : BitVec 64}
    (nonzero : format.read inner ≠ 0) (nonzero' : format.read outer ≠ 0) :
    (∀ x, format.read inner * format.read outer ≠ 0 ∧
      quotient format (quotient format x (format.read inner)) (format.read outer) =
        quotient format x (format.read inner * format.read outer)) ↔
      DivisorsCombine format inner outer := by
  have some_inner := mt (number_eq_zero_iff inner).mp nonzero
  have some_outer := mt (number_eq_zero_iff outer).mp nonzero'
  unfold DivisorsCombine quotient
  simp only [some_inner, some_outer, false_or]
  unfold IntFormat.number
  split
  · rw [udiv_udiv_iff nonzero nonzero']
    norm_cast
  · exact sdiv_sdiv_iff wide nonzero nonzero'

theorem propagateDivConstant_preserves_iff (wide : 2 ≤ format.bits)
    (propagated : propagateDivConstant chain = some rewritten) (left left' : IntFormat) :
    (rewritten.operand = chain.base ∧ ∀ x, Preserves format
      ((chain.opcode.integerValue format left x chain.inner).bind fun word =>
        IROpcode.divi.integerValue format format word chain.outer)
      (rewritten.opcode.integerValue format left' x rewritten.constant)) ↔
      DivisorsCombine format chain.inner chain.outer := by
  unfold propagateDivConstant at propagated
  split_ifs at propagated with other zero
  rw [Option.bind_eq_bind, Option.bind_eq_some_iff] at propagated
  rcases propagated with ⟨combined, multiplied, propagated⟩
  split_ifs at propagated with none
  cases propagated
  rw [not_not.mp other, ConstantChain.combined, int64MulOverflow_eq multiplied]
  simp only [true_and, integerValue_divi, IntFormat.read_mul]
  split
  next noInner =>
    have combines : DivisorsCombine format chain.inner chain.outer :=
      .inl ((number_eq_zero_iff _).mpr noInner)
    exact iff_of_true (fun _ => preserves_none _) combines
  next someInner =>
    simp only [Option.bind_some, IntFormat.read_extend]
    split
    next noOuter =>
      have combines : DivisorsCombine format chain.inner chain.outer :=
        .inr (.inl ((number_eq_zero_iff _).mpr noOuter))
      exact iff_of_true (fun _ => preserves_none _) combines
    next someOuter =>
      rw [← quotient_quotient_iff wide someInner someOuter]
      constructor
      · intro preserves x
        have preserved := preserves (format.extend x)
        rw [IntFormat.read_extend] at preserved
        split at preserved
        next =>
          rcases preserved _ rfl with ⟨_, impossible, _⟩
          cases impossible
        next nonzero => exact ⟨nonzero, preserves_extend_iff.mp preserved⟩
      · intro same x
        rw [if_neg (same 0).1]
        exact preserves_extend (same (format.read x)).2

end Divisions

section Chains

variable [Compiler] {gen : Generator} {id : NodeId} {chain : ConstantChain}
  {rewritten : Rewritten} {type : TypeRecord}

/-- A rewritten chain of operations of one type has its value for every operand, exactly
unless it is a chain of divisions by divisors that do not combine. -/
theorem propagateConstant_reassociates_iff (positive : 0 < type.size) (small : type.size ≤ 8)
    (chained : constantChain gen id = some chain) (typed : (gen.nodes id).type = some type)
    (sourceTyped : (gen.nodes chain.source).type = some type)
    (propagated : propagateConstant gen id = some rewritten) :
    chain.Reassociates gen id rewritten ↔
      ((gen.nodes id).opcode = .divi →
        DivisorsCombine (storageFormat type) chain.inner chain.outer) := by
  have format := storageFormat_of_size positive small
  have own : (Term.node id).format gen = storageFormat type := by
    simp [Term.format, Term.typeIn, typed]
  have sources : (Term.node chain.source).format gen = storageFormat type := by
    simp [Term.format, Term.typeIn, sourceTyped]
  unfold ConstantChain.Reassociates ConstantChain.value Rewritten.value
  rw [own, sources]
  unfold propagateConstant at propagated
  simp only [chained, typed, Option.bind_eq_bind, Option.bind_some] at propagated
  split at propagated
  · cases propagated
  split at propagated
  next opcode =>
    have spec := propagateAddConstant_spec (storageFormat type) propagated
    rw [opcode]
    exact iff_of_true ⟨spec.1, fun _ => sums_preserve (.inl rfl) spec.2.1 spec.2.2.1 spec.2.2.2
      _ _⟩ nofun
  next opcode =>
    have spec := propagateSubConstant_spec (storageFormat type) propagated
    rw [opcode]
    exact iff_of_true ⟨spec.1, fun _ => sums_preserve (.inr rfl) spec.2.1 spec.2.2.1 spec.2.2.2
      _ _⟩ nofun
  next opcode =>
    rw [opcode]
    have preserves (x : BitVec 64) := propConstOp_preserves (x := x) (fun _ _ _ => rfl)
      (storageFormat type).read_mul mul_assoc propagated
        ((Term.node chain.base).format gen) ((Term.node rewritten.operand).format gen)
    exact iff_of_true ⟨(preserves 0).1, fun x => (preserves x).2⟩ nofun
  next opcode =>
    rw [opcode]
    have divides := propagateDivConstant_preserves_iff (by rw [format.1]; omega) propagated
      ((Term.node chain.base).format gen) ((Term.node rewritten.operand).format gen)
    exact divides.trans (true_imp_iff.symm.trans (by simp))
  next opcode =>
    rw [opcode]
    have preserves (x : BitVec 64) := propConstOp_preserves (x := x) (fun _ _ _ => rfl)
      (storageFormat type).read_xor BitVec.xor_assoc propagated ((Term.node chain.base).format gen)
      ((Term.node rewritten.operand).format gen)
    exact iff_of_true ⟨(preserves 0).1, fun x => (preserves x).2⟩ nofun
  next opcode =>
    rw [opcode]
    have preserves (x : BitVec 64) := propConstOp_preserves (x := x) (fun _ _ _ => rfl)
      (storageFormat type).read_and BitVec.and_assoc propagated ((Term.node chain.base).format gen)
      ((Term.node rewritten.operand).format gen)
    exact iff_of_true ⟨(preserves 0).1, fun x => (preserves x).2⟩ nofun
  next opcode =>
    rw [opcode]
    have preserves (x : BitVec 64) := propConstOp_preserves (x := x) (fun _ _ _ => rfl)
      (storageFormat type).read_or BitVec.or_assoc propagated ((Term.node chain.base).format gen)
      ((Term.node rewritten.operand).format gen)
    exact iff_of_true ⟨(preserves 0).1, fun x => (preserves x).2⟩ nofun
  next opcode =>
    rw [opcode]
    have preserves (x : BitVec 64) := propagateShiftConstant_preserves (x := x) format.1.symm
      (fun _ _ _ => rfl) (fun x a b => (BitVec.shiftRight_add x a b).symm) propagated
      ((Term.node chain.base).format gen) ((Term.node rewritten.operand).format gen)
    exact iff_of_true ⟨(preserves 0).1, fun x => (preserves x).2⟩ nofun
  next opcode =>
    rw [opcode]
    have preserves (x : BitVec 64) := propagateShiftConstant_preserves (x := x) format.1.symm
      (fun _ _ _ => rfl) (fun _ _ _ => BitVec.sshiftRight_add.symm) propagated
      ((Term.node chain.base).format gen) ((Term.node rewritten.operand).format gen)
    exact iff_of_true ⟨(preserves 0).1, fun x => (preserves x).2⟩ nofun
  next opcode =>
    rw [opcode]
    have preserves (x : BitVec 64) := propagateShiftConstant_preserves (x := x) format.1.symm
      (fun _ _ _ => rfl) (fun x a b => (BitVec.shiftLeft_add x a b).symm) propagated
      ((Term.node chain.base).format gen) ((Term.node rewritten.operand).format gen)
    exact iff_of_true ⟨(preserves 0).1, fun x => (preserves x).2⟩ nofun
  next => cases propagated

end Chains

section Examples

/-- `int` with 4 bytes. -/
def intType : TypeRecord where
  declarator := .primitive
  type := kTypeInt
  size := 4

/-- A loaded `int` divided by two constants. -/
def twiceDivided (first second : BitVec 64) : Generator where
  nodes
    | 0 => { opcode := .load32, type := some intType, outputs := [2] }
    | 1 => { opcode := .const32, type := some intType, ivalue := first, outputs := [2] }
    | 2 => { opcode := .divi, type := some intType, inputs := [0, 1], outputs := [4] }
    | 3 => { opcode := .const32, type := some intType, ivalue := second, outputs := [4] }
    | _ => { opcode := .divi, type := some intType, inputs := [2, 3] }
  basicBlocks := []
  entryBlock := 0

/-- The chain of the two divisions. -/
def twiceDividedChain (first second : BitVec 64) : ConstantChain :=
  ⟨2, 0, .divi, first, second, some intType⟩

/-- Division by 10 and by 100 is division by 1000. -/
theorem propagateConstant_reassociates_thousand :
    ∃ (_ : Compiler), (twiceDividedChain 10 100).Reassociates (twiceDivided 10 100) 4
      ((twiceDividedChain 10 100).combined .divi 1000) := by
  let _ : Compiler := ⟨true⟩
  exact ⟨_, (propagateConstant_reassociates_iff (show 0 < intType.size by decide) (by decide)
    (by decide) rfl rfl (by decide)).mpr fun _ => by decide⟩

/-- The two divisions by 65536 have the value zero. The product of the divisors is zero
at 32 bits, and the one division by it has no value. -/
theorem not_propagateConstant_reassociates :
    ¬∀ [Compiler] (gen : Generator) (id : NodeId) (type : TypeRecord) (chain : ConstantChain)
      (rewritten : Rewritten), type.isIntegral = true → 0 < type.size → type.size ≤ 8 →
      constantChain gen id = some chain → (gen.nodes id).type = some type →
      (gen.nodes chain.source).type = some type →
      propagateConstant gen id = some rewritten → chain.Reassociates gen id rewritten := by
  intro reassociates
  let _ : Compiler := ⟨true⟩
  have preserves := (reassociates (twiceDivided 65536 65536) 4 intType
    (twiceDividedChain 65536 65536) ((twiceDividedChain 65536 65536).combined .divi 4294967296)
    (by decide) (by decide) (by decide) (by decide) rfl rfl (by decide)).2 0
  have two : (twiceDividedChain 65536 65536).value (twiceDivided 65536 65536) 4 0 = some 0 := by
    decide
  have one : ((twiceDividedChain 65536 65536).combined .divi 4294967296).value
      (twiceDivided 65536 65536) 4 0 = none := by
    decide
  rw [two, one] at preserves
  rcases preserves 0 rfl with ⟨_, impossible, _⟩
  cases impossible

end Examples

end DaveCC.Optimization.Reassociation
