import DaveCC.Frontend.IntegralConversion
import DaveCC.Optimization.Sccp

/-!
# The evaluator of integer constant expressions

`EvaluateIntegerExpressionInContext` of `expr_evaluator.c` on expressions of integral
type, and `EvaluateConstexprValue` of `constexpr.c` as far as the comma operator reaches
it. The evaluator computes on `int64_t`, so that what C leaves undefined on the host is an
outcome of its own.
-/

namespace DaveCC.Frontend.ConstantExpression

open DaveCC.Arith DaveCC.Backend Optimization.Sccp

abbrev Word := BitVec 64

inductive ConstantKind where
  | number | charconst | charwide
  deriving DecidableEq, Repr

inductive UnaryOp where
  | uminus | uplus | onescomp
  deriving DecidableEq, Repr

/-- The host's type that a conversion casts to: `i2c` and its like to `char`, and so on. -/
inductive HostType where
  | char | bool | short | int | long | longLong
  deriving DecidableEq, Repr

inductive BinaryOp where
  | plus | minus | mult | div | mod | lshift | rshifta | rshiftl | and | bitor | exor
  deriving DecidableEq, Repr

inductive CompareOp where
  | less | lesseq | greater | greatereq | equal | noteq
  deriving DecidableEq, Repr

inductive BitCountOp where
  | clz | ctz | popcount
  deriving DecidableEq, Repr

/-- An expression as semantic analysis leaves it. The size of a `sizeof` or an `alignof`
is the one that the target's layout gives its operand. -/
inductive Expr where
  | constant (kind : ConstantKind) (type : TypeRecord) (ivalue : Word)
  | sizeof (type : TypeRecord) (size : Nat)
  | unary (op : UnaryOp) (type : TypeRecord) (sub : Expr)
  | not (type : TypeRecord) (sub : Expr)
  | convert (host : HostType) (type : TypeRecord) (sub : Expr)
  /-- `i2b`, `s2b`, `l2b` and `ll2b`. -/
  | toBool (type : TypeRecord) (sub : Expr)
  | cast (type : TypeRecord) (sub : Expr)
  | binary (op : BinaryOp) (type : TypeRecord) (left right : Expr)
  | compare (op : CompareOp) (type : TypeRecord) (left right : Expr)
  | logand (type : TypeRecord) (left right : Expr)
  | logor (type : TypeRecord) (left right : Expr)
  | question (type : TypeRecord) (cond left right : Expr)
  | comma (type : TypeRecord) (left right : Expr)
  | bitCount (op : BitCountOp) (type : TypeRecord) (value : Expr)
  | bitCountOf (op : BitCountOp) (type : TypeRecord) (value width : Expr)
  | rotate (toLeft : Bool) (type : TypeRecord) (value amount : Expr)
  deriving Repr

def Expr.type : Expr → TypeRecord
  | .constant _ type _ | .sizeof type _ | .unary _ type _ | .not type _ | .convert _ type _
  | .toBool type _ | .cast type _ | .binary _ type _ _ | .compare _ type _ _ | .logand type _ _
  | .logor type _ _ | .question type _ _ _ | .comma type _ _ | .bitCount _ type _
  | .bitCountOf _ type _ _ | .rotate _ type _ _ => type

/-- What evaluation comes to: it fails, it does what C leaves undefined, or it has a
result. -/
inductive Outcome where
  | rejected | undefined
  | value (word : Word)
  deriving DecidableEq, Repr

def Outcome.map (change : Word → Word) : Outcome → Outcome
  | .value word => .value (change word)
  | other => other

/-- An evaluation with a number of steps left, and how many it leaves. -/
abbrev Evaluation := Nat → Outcome × Nat

namespace Evaluation

def done (outcome : Outcome) : Evaluation :=
  fun steps => (outcome, steps)

/-- `ConstEvalStep`. -/
def step (next : Evaluation) : Evaluation
  | 0 => (.rejected, 0)
  | steps + 1 => next steps

def andThen (first : Evaluation) (next : Word → Evaluation) : Evaluation :=
  fun steps =>
    match first steps with
    | (.value word, steps) => next word steps
    | other => other

/-- What is tried next when the first has failed. -/
def orElse (first next : Evaluation) : Evaluation :=
  fun steps =>
    match first steps with
    | (.rejected, steps) => next steps
    | other => other

end Evaluation

section Operations

variable [Compiler]

def normalizeIntegerValueForType (value : Word) (type : TypeRecord) : Word :=
  let bits := if type.isBitInt then type.bitWidth else type.size * 8
  if !type.isIntegral || bits == 0 || 64 ≤ bits then value
  else maskInteger bits type.isUnsigned value

def typeIsUnsignedIntegral (type : TypeRecord) : Bool :=
  type.isIntegral && type.isUnsigned && !type.isBool

def binaryUnsignedIntegerConversionType (left right : TypeRecord) : Option TypeRecord :=
  if typeIsUnsignedIntegral left && typeIsUnsignedIntegral right then
    some (if right.size ≤ left.size then left else right)
  else if typeIsUnsignedIntegral left then some left
  else if typeIsUnsignedIntegral right then some right
  else none

def typeIsInt128 (type : TypeRecord) : Bool :=
  type.isKind kTypeInt128

def truth (condition : Bool) : Word :=
  if condition then 1 else 0

/-- A number is in the range of `int64_t`. -/
def FitsHost (number : Int) : Prop :=
  -2 ^ 63 ≤ number ∧ number < 2 ^ 63

instance (number : Int) : Decidable (FitsHost number) :=
  inferInstanceAs (Decidable (_ ∧ _))

/-- A result of arithmetic on `int64_t`. -/
def hostInt (number : Int) : Outcome :=
  if FitsHost number then .value (.ofInt 64 number) else .undefined

/-- A cast of an `int64_t` to a type of the host. -/
def HostType.cast (host : HostType) (value : Word) : Word :=
  match host with
  | .char => (value.setWidth 8).signExtend 64
  | .bool => truth (value != 0)
  | .short => (value.setWidth 16).signExtend 64
  | .int => (value.setWidth 32).signExtend 64
  | .long | .longLong => value

/-- `EVAL_UNARY_OP` of the arithmetic operators. -/
def evaluateUnary (op : UnaryOp) (type : TypeRecord) (left : Word) : Outcome :=
  let result := match op with
    | .uminus => hostInt (-left.toInt)
    | .uplus => .value left
    | .onescomp => .value (~~~left)
  result.map (normalizeIntegerValueForType · type)

/-- `div` and `mod`, which differ in the host's operators. -/
def evaluateDivision (unsignedOp signedOp : Word → Word → Word) (leftType rightType : TypeRecord)
    (left right : Word) : Outcome :=
  if right = 0 then .rejected
  else
    match binaryUnsignedIntegerConversionType leftType rightType with
    | some type =>
      let uleft := normalizeIntegerValueForType left type
      let uright := normalizeIntegerValueForType right type
      if uright = 0 then .undefined else .value (unsignedOp uleft uright)
    | none =>
      if left = BitVec.intMin 64 ∧ right = BitVec.allOnes 64 then .undefined
      else .value (signedOp left right)

/-- A count that a shift of 64 bits is defined for. -/
def HostCount (count : Word) : Prop :=
  0 ≤ count.toInt ∧ count.toInt < 64

instance (count : Word) : Decidable (HostCount count) :=
  inferInstanceAs (Decidable (_ ∧ _))

/-- The binary operators. A left shift of a negative number, or out of the range, is
undefined. -/
def evaluateBinary (op : BinaryOp) (type leftType rightType : TypeRecord) (left right : Word) :
    Outcome :=
  let normalized (result : Outcome) := result.map (normalizeIntegerValueForType · type)
  match op with
  | .plus => normalized (hostInt (left.toInt + right.toInt))
  | .minus => normalized (hostInt (left.toInt - right.toInt))
  | .mult => normalized (hostInt (left.toInt * right.toInt))
  | .div => evaluateDivision (· / ·) BitVec.sdiv leftType rightType left right
  | .mod => evaluateDivision (· % ·) BitVec.srem leftType rightType left right
  | .lshift =>
    normalized (if HostCount right ∧ 0 ≤ left.toInt then
      hostInt (left.toInt * 2 ^ right.toNat) else .undefined)
  | .rshifta =>
    normalized (if HostCount right then .value (left.sshiftRight right.toNat) else .undefined)
  | .rshiftl => if HostCount right then .value (left >>> right.toNat) else .undefined
  | .and => normalized (.value (left &&& right))
  | .bitor => normalized (.value (left ||| right))
  | .exor => normalized (.value (left ^^^ right))

/-- The comparisons on values of one signedness. -/
def CompareOp.holds (op : CompareOp) (isUnsigned : Bool) (left right : Word) : Bool :=
  let less (left right : Word) := if isUnsigned then left.ult right else left.slt right
  let lesseq (left right : Word) := if isUnsigned then left.ule right else left.sle right
  match op with
  | .less => less left right
  | .lesseq => lesseq left right
  | .greater => less right left
  | .greatereq => lesseq right left
  | .equal => left == right
  | .noteq => left != right

def evaluateCompare (op : CompareOp) (leftType rightType : TypeRecord) (left right : Word) :
    Word :=
  match binaryUnsignedIntegerConversionType leftType rightType with
  | some type =>
    truth (op.holds true (normalizeIntegerValueForType left type)
      (normalizeIntegerValueForType right type))
  | none => truth (op.holds false left right)

/-- The bits of a type that `builtin_clz` and its like count in. -/
def bitWidthOf (type : TypeRecord) : Nat :=
  if type.isBitInt then type.bitWidth else type.size * 8

/-- `builtin_clz`, `builtin_ctz` and `builtin_popcount`. A position past the word is
undefined for the host. -/
def evaluateBitCount (op : BitCountOp) (width : Nat) (left : Word) : Outcome :=
  let value := left &&& widthMask width
  match op with
  | .popcount => .value (.ofNat 64 (countOnes value 64))
  | .clz =>
    if 64 < width then .undefined
    else .value (.ofNat 64 (countLeadingZeros value width))
  | .ctz =>
    if 64 < width ∧ value = 0 then .undefined
    else .value (.ofNat 64 (countTrailingZeros value 0 (min width 64)))

/-- `builtin_rotl` and `builtin_rotr`. The remainder by a width of zero is undefined, and
so is a shift by the width of the word or more. -/
def evaluateRotate (toLeft : Bool) (width : Nat) (left right : Word) : Outcome :=
  let amount := right.toInt.emod width
  if width = 0 ∨ (64 < width ∧ amount ≠ 0) then .undefined
  else .value (rotateInteger toLeft width left right)

end Operations

/-! ## Expressions -/

/-- The literal that `EvaluateOffsetofStyleAddress` finds under casts. -/
def offsetofStyleAddress : Expr → Option Word
  | .cast _ expr => offsetofStyleAddress expr
  | .constant .number _ ivalue | .constant .charconst _ ivalue => some ivalue
  | _ => none

/-- What evaluates the expressions of type `__int128`: `ConstexprCompareInt128Operands`,
and the low word of `EvaluateInt128Expression`. -/
structure Int128Evaluation where
  compareOperands : CompareOp → Expr → Expr → Evaluation
  low : Expr → Evaluation

/-- `EvaluateIntegerExpressionInContext` of an expression, and the integer that
`EvaluateConstexprValue` gives of it at a type that is `__int128` or not. -/
structure Evaluators where
  integer : Evaluation
  value : Bool → Evaluation

/-- An expression that `EvaluateConstexprValue` has no case for. -/
def Evaluators.plain (low integer : Evaluation) : Evaluators where
  integer := integer
  value := fun isInt128 => if isInt128 then low else integer

variable [Compiler] (wide : Int128Evaluation)

open Evaluation

/-- A unary node behind the step that every node takes. -/
def unaryNode (operand : Evaluators) (result : Word → Outcome) : Evaluation :=
  step (operand.integer.andThen fun left => done (result left))

/-- A node that evaluates both of its operands. -/
def binaryNode (left right : Evaluators) (result : Word → Word → Outcome) : Evaluation :=
  step (left.integer.andThen fun left =>
    right.integer.andThen fun right => done (result left right))

/-- `cast`: a literal is looked for under the casts when the operand cannot be
evaluated. -/
def castNode (type : TypeRecord) (operand : Evaluators) (literal : Option Word) : Evaluation :=
  step ((operand.integer.andThen fun left =>
    done (.value (normalizeIntegerValueForType left type))).orElse
      (done (literal.elim .rejected fun value =>
        .value (normalizeIntegerValueForType value type))))

/-- The selected arm of `question`. -/
def selectArm (cond : Evaluators) (left right : Evaluation) : Evaluation :=
  cond.integer.andThen fun cond => if cond ≠ 0 then left else right

/-- `EvaluateConstexprMutation` of `comma`. -/
def commaMutation (leftType : TypeRecord) (left right : Evaluators) (isInt128 : Bool) :
    Evaluation :=
  step ((left.value (typeIsInt128 leftType)).andThen fun _ => right.value isInt128)

def evaluators : Expr → Evaluators
  | .constant kind type ivalue =>
    .plain (wide.low (.constant kind type ivalue)) (step (done (.value ivalue)))
  | .sizeof type size =>
    .plain (wide.low (.sizeof type size)) (step (done (.value (.ofNat 64 size))))
  | .unary op type sub =>
    .plain (wide.low (.unary op type sub)) (unaryNode (evaluators sub) (evaluateUnary op type))
  | .not type sub =>
    .plain (wide.low (.not type sub)) (unaryNode (evaluators sub) fun left =>
      .value (normalizeIntegerValueForType (truth (left == 0)) type))
  | .convert host type sub =>
    .plain (wide.low (.convert host type sub)) (unaryNode (evaluators sub) fun left =>
      .value (normalizeIntegerValueForType (host.cast left) type))
  | .toBool type sub =>
    .plain (wide.low (.toBool type sub)) (unaryNode (evaluators sub) fun left =>
      .value (truth (left != 0)))
  | .cast type sub =>
    .plain (wide.low (.cast type sub)) (castNode type (evaluators sub) (offsetofStyleAddress sub))
  | .binary op type left right =>
    .plain (wide.low (.binary op type left right))
      (binaryNode (evaluators left) (evaluators right)
        (evaluateBinary op type left.type right.type))
  | .compare op type left right =>
    let compared := (evaluators left).integer.andThen fun a =>
      (evaluators right).integer.andThen fun b =>
        done (.value (evaluateCompare op left.type right.type a b))
    .plain (wide.low (.compare op type left right))
      (step (if typeIsInt128 left.type || typeIsInt128 right.type then
        (wide.compareOperands op left right).orElse compared else compared))
  | .logand type left right =>
    .plain (wide.low (.logand type left right))
      (step ((evaluators left).integer.andThen fun a =>
        if a = 0 then done (.value 0)
        else (evaluators right).integer.andThen fun b => done (.value (truth (b != 0)))))
  | .logor type left right =>
    .plain (wide.low (.logor type left right))
      (step ((evaluators left).integer.andThen fun a =>
        if a = 0 then
          (evaluators right).integer.andThen fun b => done (.value (truth (b != 0)))
        else done (.value 1)))
  | .question _ cond left right =>
    { integer :=
        step (selectArm (evaluators cond) (evaluators left).integer (evaluators right).integer)
      value := fun isInt128 =>
        selectArm (evaluators cond) ((evaluators left).value isInt128)
          ((evaluators right).value isInt128) }
  | .comma type left right =>
    let mutation := commaMutation left.type (evaluators left) (evaluators right)
    { integer := step (mutation (typeIsInt128 type))
      value := mutation }
  | .bitCount op type value =>
    .plain (wide.low (.bitCount op type value))
      (unaryNode (evaluators value) (evaluateBitCount op (bitWidthOf value.type)))
  | .bitCountOf op type value width =>
    .plain (wide.low (.bitCountOf op type value width))
      (binaryNode (evaluators value) (evaluators width) fun left right =>
        if right.toInt ≤ 0 ∨ 64 < right.toInt then .rejected
        else evaluateBitCount op right.toNat left)
  | .rotate toLeft type value amount =>
    .plain (wide.low (.rotate toLeft type value amount))
      (binaryNode (evaluators value) (evaluators amount)
        (evaluateRotate toLeft (bitWidthOf value.type)))

/-- `EvaluateIntegerExpressionInContext`. -/
def evaluateInteger (expr : Expr) : Evaluation :=
  (evaluators wide expr).integer

end DaveCC.Frontend.ConstantExpression
