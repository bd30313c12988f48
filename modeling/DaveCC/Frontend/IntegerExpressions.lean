import DaveCC.Frontend.ExprEvaluator

/-!
# The meaning of integer constant expressions

The value that the language gives an expression: each operator is computed at the width and
signedness of its operands' common type, and its result is converted to the type of the
node. A value is a word in canonical form for its type.
-/

namespace DaveCC.Frontend.ConstantExpression

open DaveCC.Arith DaveCC.Backend

section Meaning

variable [Compiler]

def formatOf (type : TypeRecord) : IntFormat :=
  wordFormat (some type)

/-- Conversion to a type; to `bool`, whether the value is not zero. -/
def convertTo (type : TypeRecord) (value : Word) : Word :=
  if type.isBool then truth (value != 0) else (formatOf type).canonicalize value

/-- The common type of operands of one width. -/
def commonFormat (left right : TypeRecord) : IntFormat :=
  { formatOf left with
    isUnsigned := typeIsUnsignedIntegral left || typeIsUnsignedIntegral right }

/-- The operation that an operator stands for. -/
def UnaryOp.opcode : UnaryOp → IROpcode
  | .uminus => .negi
  | .uplus => .movi
  | .onescomp => .onescomp

def BinaryOp.opcode : BinaryOp → IROpcode
  | .plus => .addi
  | .minus => .subi
  | .mult => .muli
  | .div => .divi
  | .mod => .modi
  | .lshift => .lsli
  | .rshifta => .asri
  | .rshiftl => .lsri
  | .and => .andi
  | .bitor => .ori
  | .exor => .xori

def CompareOp.opcode : CompareOp → IROpcode
  | .less => .cmplti
  | .lesseq => .cmplei
  | .greater => .cmpgti
  | .greatereq => .cmpgei
  | .equal => .cmpeqi
  | .noteq => .cmpnei

def BinaryOp.isShift : BinaryOp → Bool
  | .lshift | .rshifta | .rshiftl => true
  | _ => false

/-- A shift is made at the type of its left operand. -/
def BinaryOp.format (op : BinaryOp) (left right : TypeRecord) : IntFormat :=
  if op.isShift then formatOf left else commonFormat left right

/-- A count of the low bits of a word. -/
def BitCountOp.count (op : BitCountOp) (width : Nat) (value : Word) : Word :=
  .ofNat 64 (match op with
    | .clz => leadingZeros (value.setWidth width)
    | .ctz => trailingZeros (value.setWidth width)
    | .popcount => populationCount (value.setWidth width))

def rotateOpcode (toLeft : Bool) : IROpcode :=
  if toLeft then .rotli else .rotri

namespace Expr

/-- The value of an expression, unless the language gives it none. A result out of the
range of a signed type wraps as on the targets. -/
def value : Expr → Option Word
  | .constant _ type ivalue => some (convertTo type ivalue)
  | .sizeof type size => some (convertTo type (.ofNat 64 size))
  | .unary op type sub =>
    sub.value.bind fun a =>
      (op.opcode.integerValue (formatOf sub.type) (formatOf sub.type) a 0).map (convertTo type)
  | .not type sub => sub.value.map fun a => convertTo type (truth (a == 0))
  | .convert _ type sub | .toBool type sub | .cast type sub => sub.value.map (convertTo type)
  | .binary op type left right =>
    left.value.bind fun a => right.value.bind fun b =>
      (op.opcode.integerValue (op.format left.type right.type) (op.format left.type right.type)
        a b).map (convertTo type)
  | .compare op type left right =>
    left.value.bind fun a => right.value.bind fun b =>
      (op.opcode.integerValue (formatOf type) (commonFormat left.type right.type) a b).map
        (convertTo type)
  | .logand type left right =>
    left.value.bind fun a =>
      if a = 0 then some (convertTo type 0)
      else right.value.map fun b => convertTo type (truth (b != 0))
  | .logor type left right =>
    left.value.bind fun a =>
      if a = 0 then right.value.map fun b => convertTo type (truth (b != 0))
      else some (convertTo type 1)
  | .question type cond left right =>
    cond.value.bind fun a => (if a ≠ 0 then left.value else right.value).map (convertTo type)
  | .comma type left right => left.value.bind fun _ => right.value.map (convertTo type)
  | .bitCount op type value =>
    value.value.map fun a => convertTo type (op.count (formatOf value.type).bits a)
  | .bitCountOf op type value width =>
    value.value.bind fun a => width.value.bind fun b =>
      if b.toInt ≤ 0 ∨ 64 < b.toInt then none
      else some (convertTo type (op.count b.toNat a))
  | .rotate toLeft type value amount =>
    value.value.bind fun a => amount.value.bind fun b =>
      ((rotateOpcode toLeft).integerValue (formatOf value.type) (formatOf value.type) a b).map
        (convertTo type)

/-- An expression and the operands of it that the language evaluates. -/
def evaluated : Expr → List Expr
  | .constant kind type ivalue => [.constant kind type ivalue]
  | .sizeof type size => [.sizeof type size]
  | .unary op type sub => .unary op type sub :: sub.evaluated
  | .not type sub => .not type sub :: sub.evaluated
  | .convert host type sub => .convert host type sub :: sub.evaluated
  | .toBool type sub => .toBool type sub :: sub.evaluated
  | .cast type sub => .cast type sub :: sub.evaluated
  | .binary op type left right =>
    .binary op type left right :: (left.evaluated ++ right.evaluated)
  | .compare op type left right =>
    .compare op type left right :: (left.evaluated ++ right.evaluated)
  | .logand type left right =>
    .logand type left right ::
      (left.evaluated ++ if left.value = some 0 then [] else right.evaluated)
  | .logor type left right =>
    .logor type left right ::
      (left.evaluated ++ if left.value = some 0 then right.evaluated else [])
  | .question type cond left right =>
    .question type cond left right ::
      (cond.evaluated ++ if cond.value = some 0 then right.evaluated else left.evaluated)
  | .comma type left right => .comma type left right :: (left.evaluated ++ right.evaluated)
  | .bitCount op type value => .bitCount op type value :: value.evaluated
  | .bitCountOf op type value width =>
    .bitCountOf op type value width :: (value.evaluated ++ width.evaluated)
  | .rotate toLeft type value amount =>
    .rotate toLeft type value amount :: (value.evaluated ++ amount.evaluated)

end Expr

/-! ## Typing -/

/-- An integral type of at most 64 bits. -/
def Integer (type : TypeRecord) : Prop :=
  type.intFormat?.isSome = true ∧ typeIsInt128 type = false

/-- A promoted type. -/
def Arithmetic (type : TypeRecord) : Prop :=
  Integer type ∧ type.isBool = false

/-- A type of truth values. -/
def Logical (type : TypeRecord) : Prop :=
  Integer type ∧ 1 < (formatOf type).bits

/-- The typing of a binary operator. The operands have been converted to a common width;
they may differ in sign, and so may the node. -/
def BinaryOp.WellTyped (op : BinaryOp) (type left right : TypeRecord) : Prop :=
  (Arithmetic type ∧ Arithmetic left ∧ Arithmetic right) ∧
    (formatOf type).bits = (formatOf left).bits ∧
    (op.isShift = false → (formatOf left).bits = (formatOf right).bits) ∧
    (op = .rshifta → left.isUnsigned = false) ∧ (op = .rshiftl → left.isUnsigned = true)

namespace Expr

/-- What semantic analysis leaves of an integer constant expression. -/
def WellTyped : Expr → Prop
  | .constant _ type _ | .sizeof type _ => Integer type
  | .unary _ type sub =>
    (Arithmetic type ∧ Arithmetic sub.type ∧
      (formatOf type).bits = (formatOf sub.type).bits) ∧ sub.WellTyped
  | .not type sub => Integer type ∧ sub.WellTyped
  | .convert _ type sub | .cast type sub => Integer type ∧ sub.WellTyped
  | .toBool type sub => (Integer type ∧ type.isBool = true) ∧ sub.WellTyped
  | .binary op type left right =>
    op.WellTyped type left.type right.type ∧ left.WellTyped ∧ right.WellTyped
  | .compare _ type left right =>
    (Logical type ∧ Arithmetic left.type ∧ Arithmetic right.type ∧
      (formatOf left.type).bits = (formatOf right.type).bits) ∧
      left.WellTyped ∧ right.WellTyped
  | .logand type left right | .logor type left right =>
    Logical type ∧ left.WellTyped ∧ right.WellTyped
  | .question type cond left right =>
    Integer type ∧ cond.WellTyped ∧ left.WellTyped ∧ right.WellTyped
  | .comma type left right => Integer type ∧ left.WellTyped ∧ right.WellTyped
  | .bitCount _ type value => (Integer type ∧ Integer value.type) ∧ value.WellTyped
  | .bitCountOf _ type value width =>
    Integer type ∧ value.WellTyped ∧ width.WellTyped
  | .rotate _ type value amount =>
    (Integer type ∧ Integer value.type ∧ value.type.isUnsigned = true) ∧
      value.WellTyped ∧ amount.WellTyped

end Expr

/-- The quotient or the remainder that the host computes. -/
def hostDivision (unsignedOp signedOp : Word → Word → Word) (format : IntFormat)
    (left right : Word) : Word :=
  if format.isUnsigned then unsignedOp (format.canonicalize left) (format.canonicalize right)
  else signedOp left right

/-- A division by a number other than zero is one that the host has a result for, and the
result, which is not normalised, is a value of the node's type. -/
def DivisionKept (unsignedOp signedOp : Word → Word → Word) (type : TypeRecord)
    (format : IntFormat) (left right : Word) : Prop :=
  right ≠ 0 →
    (format.isUnsigned = false → ¬(left = BitVec.intMin 64 ∧ right = BitVec.allOnes 64)) ∧
      (formatOf type).Canonical (hostDivision unsignedOp signedOp format left right)

/-- The operands that a binary operator is computed rightly for. -/
def BinaryOp.Kept (op : BinaryOp) (type leftType rightType : TypeRecord) (left right : Word) :
    Prop :=
  match op with
  | .plus => FitsHost (left.toInt + right.toInt)
  | .minus => FitsHost (left.toInt - right.toInt)
  | .mult => FitsHost (left.toInt * right.toInt)
  | .div => DivisionKept (· / ·) BitVec.sdiv type (commonFormat leftType rightType) left right
  | .mod => DivisionKept (· % ·) BitVec.srem type (commonFormat leftType rightType) left right
  | .lshift =>
    IROpcode.countBelow (formatOf leftType) right ∧ 0 ≤ left.toInt ∧
      FitsHost (left.toInt * 2 ^ right.toNat)
  | .rshifta => IROpcode.countBelow (formatOf leftType) right
  | .rshiftl =>
    IROpcode.countBelow (formatOf leftType) right ∧ (formatOf type).Canonical (left >>> right.toNat)
  | .and | .bitor | .exor => True

/-- A word is already a value of a type. -/
def Keeps (type : TypeRecord) (word : Word) : Prop :=
  convertTo type word = word

namespace Expr

/-- What a node needs of the values of the operands that are evaluated. -/
def Kept : Expr → Prop
  -- A literal is stored as a value of its type.
  | .constant _ type ivalue => Keeps type ivalue
  | .sizeof type size => Keeps type (.ofNat 64 size)
  | .unary op _ sub => op = .uminus → sub.value ≠ some (BitVec.intMin 64)
  | .not _ _ | .toBool _ _ | .compare _ _ _ _ | .logand _ _ _ | .logor _ _ _ => True
  -- The host's type loses nothing of the value.
  | .convert host type sub =>
    ∀ a, sub.value = some a → (formatOf type).canonicalize (host.cast a) = convertTo type a
  -- `bool` is not treated apart, and the casts of a literal are skipped when no step is left.
  | .cast type sub =>
    ∀ a, sub.value = some a → (formatOf type).canonicalize a = convertTo type a ∧
      ∀ literal, offsetofStyleAddress sub = some literal →
        (formatOf type).canonicalize literal = convertTo type a
  | .binary op type left right =>
    ∀ a b, left.value = some a → right.value = some b → op.Kept type left.type right.type a b
  | .question type cond left right =>
    ∀ a b, cond.value = some a → (if a ≠ 0 then left.value else right.value) = some b → Keeps type b
  | .comma type left right => ∀ b, left.value ≠ none → right.value = some b → Keeps type b
  | .bitCount op type value =>
    ∀ a, value.value = some a → Keeps type (op.count (formatOf value.type).bits a)
  | .bitCountOf op type value width =>
    ∀ a b, value.value = some a → width.value = some b → 0 < b.toInt → b.toInt ≤ 64 →
      Keeps type (op.count b.toNat a)
  | .rotate toLeft type value amount =>
    ∀ a b word, value.value = some a → amount.value = some b →
      (rotateOpcode toLeft).integerValue (formatOf value.type) (formatOf value.type) a b =
        some word → Keeps type word

end Expr

end Meaning

end DaveCC.Frontend.ConstantExpression
