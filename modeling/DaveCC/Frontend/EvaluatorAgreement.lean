import DaveCC.Frontend.EvaluatorOperations

/-!
# Agreement of the evaluator with the language

An evaluation computes a value when, however many steps it is given, it does nothing
undefined and returns no other value, and returns this one when the steps suffice. Every
evaluated operand of an expression is computed exactly when each node keeps its value.
-/

namespace DaveCC.Frontend.ConstantExpression

open DaveCC.Arith DaveCC.Backend Outcome

namespace Evaluation

/-- With enough steps the evaluation comes to an outcome, at a fixed cost. -/
def Reaches (evaluation : Evaluation) (outcome : Outcome) : Prop :=
  ∃ cost, ∀ steps, evaluation (steps + cost) = (outcome, steps)

/-- The evaluation gives a value, and nothing else, unless it fails for want of steps. -/
structure Computes (evaluation : Evaluation) (value : Option Word) : Prop where
  defined : ∀ steps, (evaluation steps).1 ≠ .undefined
  sound : ∀ steps word, (evaluation steps).1 = .value word → value = some word
  complete : ∀ word, value = some word → evaluation.Reaches (.value word)

variable {first evaluation : Evaluation} {next : Word → Evaluation} {outcome : Outcome}
  {word : Word} {value : Option Word}

theorem reaches_done (outcome : Outcome) : (done outcome).Reaches outcome :=
  ⟨0, fun _ => rfl⟩

theorem Reaches.step (reaches : evaluation.Reaches outcome) :
    (step evaluation).Reaches outcome := by
  obtain ⟨cost, reaches⟩ := reaches
  exact ⟨cost + 1, reaches⟩

theorem Reaches.andThen (reachesFirst : first.Reaches (.value word))
    (reachesNext : (next word).Reaches outcome) : (first.andThen next).Reaches outcome := by
  obtain ⟨firstCost, reachesFirst⟩ := reachesFirst
  obtain ⟨nextCost, reachesNext⟩ := reachesNext
  refine ⟨nextCost + firstCost, fun steps => ?_⟩
  rw [← Nat.add_assoc, Evaluation.andThen, reachesFirst]
  exact reachesNext steps

/-- The outcome that is reached is the value that is computed. -/
theorem Computes.matches (computes : evaluation.Computes value)
    (reaches : evaluation.Reaches outcome) : outcome.Matches value := by
  obtain ⟨cost, reaches⟩ := reaches
  cases outcome with
  | undefined => exact computes.defined (0 + cost) (congrArg Prod.fst (reaches 0))
  | value word => exact computes.sound (0 + cost) word (congrArg Prod.fst (reaches 0))
  | rejected =>
    cases isValue : value with
    | none => rfl
    | some word =>
      obtain ⟨valueCost, complete⟩ := computes.complete word isValue
      have disagree := complete cost
      rw [Nat.add_comm, reaches] at disagree
      cases congrArg Prod.fst disagree

theorem computes_done (agrees : outcome.Matches value) : (done outcome).Computes value where
  defined _ undefined := by
    rw [show outcome = .undefined from undefined] at agrees
    exact agrees
  sound _ word isValue := by
    rw [show outcome = .value word from isValue] at agrees
    exact agrees
  complete word isValue := by
    cases outcome with
    | rejected => cases agrees.symm.trans isValue
    | undefined => exact agrees.elim
    | value result =>
      cases agrees.symm.trans isValue
      exact reaches_done _

theorem Computes.step (computes : evaluation.Computes value) :
    (step evaluation).Computes value where
  defined
    | 0 => nofun
    | steps + 1 => computes.defined steps
  sound
    | 0 => nofun
    | steps + 1 => computes.sound steps
  complete word isValue := (computes.complete word isValue).step

/-- Either the first evaluation has a value and the next goes on, or the outcome is the
first's. -/
theorem andThen_cases (first : Evaluation) (next : Word → Evaluation) (steps : Nat) :
    (∃ word rest, first steps = (.value word, rest) ∧ first.andThen next steps = next word rest) ∨
      ((∀ word, (first steps).1 ≠ .value word) ∧ first.andThen next steps = first steps) := by
  rw [Evaluation.andThen]
  cases run : first steps with
  | mk outcome rest =>
    cases outcome with
    | value word => exact .inl ⟨word, rest, rfl, rfl⟩
    | rejected => exact .inr ⟨nofun, rfl⟩
    | undefined => exact .inr ⟨nofun, rfl⟩

theorem Computes.andThen {meaning : Word → Option Word} (computes : first.Computes value)
    (continues : ∀ word, value = some word → (next word).Computes (meaning word)) :
    (first.andThen next).Computes (value.bind meaning) where
  defined steps := by
    cases andThen_cases first next steps with
    | inl goesOn =>
      obtain ⟨word, rest, run, equal⟩ := goesOn
      rw [equal]
      exact (continues word (computes.sound steps word (congrArg Prod.fst run))).defined rest
    | inr stops =>
      rw [stops.2]
      exact computes.defined steps
  sound steps result isResult := by
    cases andThen_cases first next steps with
    | inl goesOn =>
      obtain ⟨word, rest, run, equal⟩ := goesOn
      have isValue := computes.sound steps word (congrArg Prod.fst run)
      rw [equal] at isResult
      rw [isValue, Option.bind_some]
      exact (continues word isValue).sound rest result isResult
    | inr stops =>
      rw [stops.2] at isResult
      exact absurd isResult (stops.1 result)
  complete result isResult := by
    obtain ⟨word, isValue, isResult⟩ := Option.bind_eq_some_iff.mp isResult
    exact (computes.complete word isValue).andThen
      ((continues word isValue).complete result isResult)

theorem orElse_cases (first next : Evaluation) (steps : Nat) :
    (∃ rest, first steps = (.rejected, rest) ∧ first.orElse next steps = next rest) ∨
      first.orElse next steps = first steps := by
  rw [orElse]
  cases run : first steps with
  | mk outcome rest =>
    cases outcome with
    | rejected => exact .inl ⟨rest, rfl, rfl⟩
    | value word => exact .inr rfl
    | undefined => exact .inr rfl

/-- An outcome to fall back on that is a failure, or right. -/
theorem Computes.orElse (computes : first.Computes value)
    (fallback : outcome = .rejected ∨ outcome.Matches value) :
    (first.orElse (done outcome)).Computes value where
  defined steps := by
    cases orElse_cases first (done outcome) steps with
    | inr stays =>
      rw [stays]
      exact computes.defined steps
    | inl fails =>
      obtain ⟨rest, -, equal⟩ := fails
      rw [equal]
      cases fallback with
      | inl rejected => rw [rejected]; exact nofun
      | inr agrees => exact (computes_done agrees).defined rest
  sound steps word isValue := by
    cases orElse_cases first (done outcome) steps with
    | inr stays =>
      rw [stays] at isValue
      exact computes.sound steps word isValue
    | inl fails =>
      obtain ⟨rest, -, equal⟩ := fails
      rw [equal] at isValue
      cases fallback with
      | inl rejected => rw [rejected] at isValue; cases isValue
      | inr agrees => exact (computes_done agrees).sound rest word isValue
  complete word isValue := by
    obtain ⟨cost, reaches⟩ := computes.complete word isValue
    refine ⟨cost, fun steps => ?_⟩
    rw [Evaluation.orElse, reaches]

end Evaluation

open Evaluation

section Nodes

variable {operand left right : Evaluators} {value leftValue rightValue : Option Word}

variable {meaning : Word → Option Word}

theorem unaryNode_computes_iff {result : Word → Outcome}
    (computes : operand.integer.Computes value) :
    (unaryNode operand result).Computes (value.bind meaning) ↔
      ∀ a, value = some a → (result a).Matches (meaning a) := by
  constructor
  · intro node a isValue
    have agrees := node.matches
      ((computes.complete a isValue).andThen (reaches_done (result a))).step
    rw [isValue, Option.bind_some] at agrees
    exact agrees
  · intro agrees
    exact (computes.andThen fun a isValue => computes_done (agrees a isValue)).step

theorem binaryNode_computes_iff {result : Word → Word → Outcome}
    {meaning : Word → Word → Option Word} (leftComputes : left.integer.Computes leftValue)
    (rightComputes : right.integer.Computes rightValue) :
    (binaryNode left right result).Computes (leftValue.bind fun a => rightValue.bind (meaning a)) ↔
      ∀ a b, leftValue = some a → rightValue = some b → (result a b).Matches (meaning a b) := by
  constructor
  · intro node a b isLeft isRight
    have agrees := node.matches ((leftComputes.complete a isLeft).andThen
      ((rightComputes.complete b isRight).andThen (reaches_done (result a b)))).step
    rw [isLeft, Option.bind_some, isRight, Option.bind_some] at agrees
    exact agrees
  · intro agrees
    exact (leftComputes.andThen fun a isLeft =>
      rightComputes.andThen fun b isRight => computes_done (agrees a b isLeft isRight)).step

/-- The selected arm has been evaluated to the value of the expression. -/
theorem selectArm_computes {cond : Evaluators} {leftArm rightArm : Evaluation}
    {condValue : Option Word} (condComputes : cond.integer.Computes condValue)
    (arms : ∀ a, condValue = some a → (if a ≠ 0 then leftArm else rightArm).Computes (meaning a)) :
    (selectArm cond leftArm rightArm).Computes (condValue.bind meaning) :=
  condComputes.andThen arms

variable [Compiler] {type : TypeRecord}

theorem castNode_computes_iff {literal : Option Word} (computes : operand.integer.Computes value)
    (stopped : operand.integer 0 = (.rejected, 0)) (valued : literal ≠ none → value ≠ none) :
    (castNode type operand literal).Computes (value.map (convertTo type)) ↔
      ∀ a, value = some a → (formatOf type).canonicalize a = convertTo type a ∧
        ∀ word, literal = some word → (formatOf type).canonicalize word = convertTo type a := by
  constructor
  · intro node a isValue
    rw [isValue, Option.map_some] at node
    constructor
    · obtain ⟨cost, reaches⟩ := computes.complete a isValue
      have converted : (castNode type operand literal).Reaches
          (.value (normalizeIntegerValueForType a type)) := by
        refine ⟨cost + 1, fun steps => ?_⟩
        rw [← Nat.add_assoc, castNode, Evaluation.step, Evaluation.orElse, Evaluation.andThen,
          reaches]
        rfl
      have agrees := node.matches converted
      rw [matches_value, normalizeIntegerValueForType_eq, Option.some.injEq] at agrees
      exact agrees.symm
    · intro word isLiteral
      have atOne : (castNode type operand literal 1).1 =
          .value (normalizeIntegerValueForType word type) := by
        rw [castNode, Evaluation.step, Evaluation.orElse, Evaluation.andThen, stopped, isLiteral]
        rfl
      have agrees := node.sound 1 _ atOne
      rw [normalizeIntegerValueForType_eq, Option.some.injEq] at agrees
      exact agrees.symm
  · intro kept
    have converted : (operand.integer.andThen fun left =>
        done (.value (normalizeIntegerValueForType left type))).Computes
          (value.map (convertTo type)) := by
      rw [Option.map_eq_bind]
      apply computes.andThen
      intro a isValue
      apply computes_done
      rw [matches_value, normalizeIntegerValueForType_eq, (kept a isValue).1, Function.comp_apply]
    apply (converted.orElse _).step
    cases literal with
    | none => exact .inl rfl
    | some word =>
      obtain ⟨a, isValue⟩ := Option.ne_none_iff_exists'.mp (valued nofun)
      right
      rw [isValue, Option.map_some, Option.elim, matches_value,
        normalizeIntegerValueForType_eq, (kept a isValue).2 word rfl]

end Nodes

/-! ## Values -/

section Values

variable [Compiler] {type : TypeRecord} {expr : Expr} {word : Word}

theorem Expr.WellTyped.integer (typed : expr.WellTyped) : Integer expr.type := by
  cases expr with
  | constant | sizeof => exact typed
  | unary => exact typed.1.1.1
  | not | convert | cast | logand | logor | question | comma | bitCountOf => first
      | exact typed.1.1
      | exact typed.1
  | toBool | bitCount | rotate => exact typed.1.1
  | binary => exact typed.1.1.1.1
  | compare => exact typed.1.1.1

theorem Expr.value_eq_convertTo (isValue : expr.value = some word) :
    ∃ source, word = convertTo expr.type source := by
  cases expr <;>
    simp only [Expr.value, Option.bind_eq_some_iff, Option.map_eq_some_iff] at isValue <;>
    grind [Expr.type, Option.map_eq_some_iff]

theorem convertTo_canonical (integer : Integer type) (word : Word) :
    (formatOf type).Canonical (convertTo type word) := by
  rw [convertTo]
  cases isBool : type.isBool with
  | false =>
    exact (formatOf type).canonical_canonicalize word
  | true =>
    exact canonicalize_truth (.inl (integer.format.2.1.trans (isUnsigned_of_isBool isBool))) _

theorem Expr.WellTyped.value_canonical (typed : expr.WellTyped)
    (isValue : expr.value = some word) : (formatOf expr.type).Canonical word := by
  obtain ⟨source, converted⟩ := Expr.value_eq_convertTo isValue
  rw [converted]
  exact convertTo_canonical typed.integer source

theorem map_convertTo {value : Option Word} (keeps : ∀ word, value = some word → Keeps type word) :
    value.map (convertTo type) = value := by
  cases value with
  | none => rfl
  | some word => exact congrArg some (keeps word rfl)

theorem offsetofStyleAddress_valued (found : offsetofStyleAddress expr ≠ none) :
    expr.value ≠ none := by
  induction expr with
  | constant => exact nofun
  | cast type sub ih =>
    intro isNone
    rw [Expr.value, Option.map_eq_none_iff] at isNone
    exact ih found isNone
  | _ => exact absurd rfl found

theorem Expr.mem_evaluated (expr : Expr) : expr ∈ expr.evaluated := by
  cases expr <;> exact List.mem_cons_self

end Values

/-! ## Expressions -/

section Agreement

variable [Compiler] (wide : Int128Evaluation)

/-- The evaluator gives an expression its value. -/
def Agrees (expr : Expr) : Prop :=
  (evaluateInteger wide expr).Computes expr.value

variable {wide} {type : TypeRecord} {expr sub left right cond : Expr}

attribute [local simp] Expr.value evaluators Expr.evaluated

theorem evaluateInteger_zero (expr : Expr) : evaluateInteger wide expr 0 = (.rejected, 0) := by
  cases expr <;> rfl

theorem leaf_computes_iff (word : Word) :
    (step (done (.value word))).Computes (some (convertTo type word)) ↔ Keeps type word := by
  constructor
  · intro computes
    exact Option.some.inj (computes.matches (reaches_done (.value word)).step)
  · intro keeps
    exact (computes_done (matches_value.mpr (congrArg some keeps))).step

theorem agrees_unary (op : UnaryOp)
    (typed : Arithmetic type ∧ Arithmetic sub.type ∧ (formatOf type).bits =
      (formatOf sub.type).bits) (agrees : Agrees wide sub) :
    Agrees wide (.unary op type sub) ↔ (Expr.unary op type sub).Kept := by
  have operator := evaluateUnary_matches_iff typed.1 typed.2.2 op
  apply (unaryNode_computes_iff agrees).trans
  constructor
  · intro matching isMinus isValue
    exact (operator _).mp (matching _ isValue) isMinus rfl
  · intro kept a isValue
    apply (operator a).mpr
    intro isMinus equal
    exact kept isMinus (isValue.trans (congrArg some equal))

theorem agrees_not (integer : Integer type) (agrees : Agrees wide sub) :
    Agrees wide (.not type sub) := by
  rw [Agrees, Expr.value, Option.map_eq_bind]
  apply (unaryNode_computes_iff agrees).mpr
  intro a _
  rw [normalize_truth integer]
  rfl

theorem agrees_toBool (isBool : type.isBool = true) (agrees : Agrees wide sub) :
    Agrees wide (.toBool type sub) := by
  rw [Agrees, Expr.value, Option.map_eq_bind]
  apply (unaryNode_computes_iff agrees).mpr
  intro a _
  rw [Function.comp_apply, convertTo, if_pos isBool]
  rfl

theorem agrees_convert (host : HostType) (agrees : Agrees wide sub) :
    Agrees wide (.convert host type sub) ↔ (Expr.convert host type sub).Kept := by
  rw [Agrees, Expr.value, Option.map_eq_bind]
  apply (unaryNode_computes_iff agrees).trans
  simp [matches_value, normalizeIntegerValueForType_eq, Expr.Kept, @eq_comm _ (convertTo type _)]

theorem agrees_cast (agrees : Agrees wide sub) :
    Agrees wide (.cast type sub) ↔ (Expr.cast type sub).Kept :=
  castNode_computes_iff agrees (evaluateInteger_zero sub) offsetofStyleAddress_valued

theorem agrees_binary (op : BinaryOp) (typed : (Expr.binary op type left right).WellTyped)
    (leftAgrees : Agrees wide left) (rightAgrees : Agrees wide right) :
    Agrees wide (.binary op type left right) ↔ (Expr.binary op type left right).Kept := by
  apply (binaryNode_computes_iff leftAgrees rightAgrees).trans
  have operator {a b : Word} (isLeft : left.value = some a) (isRight : right.value = some b) :=
    evaluateBinary_matches_iff typed.1 (typed.2.1.value_canonical isLeft)
      (typed.2.2.value_canonical isRight)
  constructor
  · intro matching a b isLeft isRight
    exact (operator isLeft isRight).mp (matching a b isLeft isRight)
  · intro kept a b isLeft isRight
    exact (operator isLeft isRight).mpr (kept a b isLeft isRight)

theorem agrees_compare (op : CompareOp) (typed : (Expr.compare op type left right).WellTyped)
    (leftAgrees : Agrees wide left) (rightAgrees : Agrees wide right) :
    Agrees wide (.compare op type left right) := by
  obtain ⟨⟨logical, leftArithmetic, rightArithmetic, bits⟩, leftTyped, rightTyped⟩ := typed
  rw [Agrees, evaluateInteger, evaluators]
  simp only [Evaluators.plain, leftArithmetic.1.2, rightArithmetic.1.2, Bool.or_self,
    Bool.false_eq_true, if_false]
  apply Computes.step
  apply leftAgrees.andThen
  intro a isLeft
  apply rightAgrees.andThen
  intro b isRight
  apply computes_done
  exact evaluateCompare_eq logical leftArithmetic rightArithmetic bits
    (leftTyped.value_canonical isLeft) (rightTyped.value_canonical isRight) op

theorem agrees_logand (logical : Logical type) (leftAgrees : Agrees wide left)
    (rightAgrees : left.value ≠ some 0 → Agrees wide right) :
    Agrees wide (.logand type left right) := by
  apply Computes.step
  apply leftAgrees.andThen
  intro a isLeft
  by_cases zero : a = 0
  · rw [if_pos zero, if_pos zero]
    exact computes_done (congrArg some (keeps_truth logical false))
  · rw [if_neg zero, if_neg zero, Option.map_eq_bind]
    apply (rightAgrees fun isZero => zero (Option.some.inj (isLeft.symm.trans isZero))).andThen
    intro b _
    exact computes_done (congrArg some (keeps_truth logical (b != 0)))

theorem agrees_logor (logical : Logical type) (leftAgrees : Agrees wide left)
    (rightAgrees : left.value = some 0 → Agrees wide right) :
    Agrees wide (.logor type left right) := by
  apply Computes.step
  apply leftAgrees.andThen
  intro a isLeft
  by_cases zero : a = 0
  · rw [if_pos zero, if_pos zero, Option.map_eq_bind]
    apply (rightAgrees (isLeft.trans (congrArg some zero))).andThen
    intro b _
    exact computes_done (congrArg some (keeps_truth logical (b != 0)))
  · rw [if_neg zero, if_neg zero]
    exact computes_done (congrArg some (keeps_truth logical true))

theorem agrees_bitCount (op : BitCountOp) (typed : Integer type ∧ Integer sub.type)
    (agrees : Agrees wide sub) :
    Agrees wide (.bitCount op type sub) ↔ (Expr.bitCount op type sub).Kept := by
  rw [Agrees, Expr.value, Option.map_eq_bind]
  apply (unaryNode_computes_iff agrees).trans
  simp [← typed.2.format.2.2, evaluateBitCount_eq (formatOf sub.type).fits, matches_value, Expr.Kept, Keeps]

omit [Compiler] in
theorem toNat_le_of_toInt {word : Word} {bound : Nat} (nonnegative : 0 ≤ word.toInt)
    (small : word.toInt ≤ bound) : word.toNat ≤ bound := by
  rw [BitVec.toInt_eq_toNat_cond] at nonnegative small
  split at small <;> omega

theorem agrees_bitCountOf (op : BitCountOp) (valueAgrees : Agrees wide left)
    (widthAgrees : Agrees wide right) :
    Agrees wide (.bitCountOf op type left right) ↔
      (Expr.bitCountOf op type left right).Kept := by
  apply (binaryNode_computes_iff valueAgrees widthAgrees).trans
  constructor
  · intro matching a b isValue isWidth positive small
    have counted := matching a b isValue isWidth
    have inside : ¬(b.toInt ≤ 0 ∨ 64 < b.toInt) := by omega
    rw [if_neg inside, if_neg inside, evaluateBitCount_eq (toNat_le_of_toInt positive.le small)] at counted
    exact Option.some.inj counted
  · intro kept a b isValue isWidth
    split
    · rfl
    · next inside =>
        have positive : 0 < b.toInt := Int.not_le.mp fun low => inside (.inl low)
        have small : b.toInt ≤ 64 := Int.not_lt.mp fun high => inside (.inr high)
        rw [evaluateBitCount_eq (toNat_le_of_toInt positive.le small)]
        exact congrArg some (kept a b isValue isWidth positive small)

theorem agrees_rotate (toLeft : Bool)
    (typed : Integer type ∧ Integer left.type ∧ left.type.isUnsigned = true)
    (valueAgrees : Agrees wide left) (amountAgrees : Agrees wide right) :
    Agrees wide (.rotate toLeft type left right) ↔ (Expr.rotate toLeft type left right).Kept := by
  have unsigned : (formatOf left.type).isUnsigned = true := typed.2.1.format.2.1.trans typed.2.2
  apply (binaryNode_computes_iff valueAgrees amountAgrees).trans
  rw [← typed.2.1.format.2.2]
  constructor
  · intro matching a b word isValue isAmount isWord
    obtain ⟨rotated, evaluated, meaning⟩ := evaluateRotate_eq unsigned toLeft a b
    have agrees := matching a b isValue isAmount
    rw [evaluated, meaning, matches_value, Option.map_some, Option.some.injEq] at agrees
    rw [meaning, Option.some.injEq] at isWord
    rw [← isWord]
    exact agrees
  · intro kept a b isValue isAmount
    obtain ⟨rotated, evaluated, meaning⟩ := evaluateRotate_eq unsigned toLeft a b
    rw [evaluated, meaning, matches_value, Option.map_some]
    exact congrArg some (kept a b rotated isValue isAmount meaning)

omit [Compiler] in
theorem selected_computes {a : Word} {leftArm rightArm : Evaluation}
    {leftValue rightValue : Option Word} (leftComputes : a ≠ 0 → leftArm.Computes leftValue)
    (rightComputes : a = 0 → rightArm.Computes rightValue) :
    (if a ≠ 0 then leftArm else rightArm).Computes (if a ≠ 0 then leftValue else rightValue) := by
  by_cases zero : a = 0
  · rw [if_neg (not_not_intro zero), if_neg (not_not_intro zero)]
    exact rightComputes zero
  · rw [if_pos zero, if_pos zero]
    exact leftComputes zero

theorem agrees_question (condAgrees : Agrees wide cond)
    (leftAgrees : cond.value ≠ some 0 → Agrees wide left)
    (rightAgrees : cond.value = some 0 → Agrees wide right) :
    Agrees wide (.question type cond left right) ↔ (Expr.question type cond left right).Kept := by
  have selected (a : Word) (isCond : cond.value = some a) :
      (if a ≠ 0 then (evaluators wide left).integer else (evaluators wide right).integer).Computes
        (if a ≠ 0 then left.value else right.value) :=
    selected_computes
      (fun nonzero => leftAgrees fun isZero => nonzero (Option.some.inj (isCond.symm.trans isZero)))
      fun zero => rightAgrees (isCond.trans (congrArg some zero))
  constructor
  · intro agrees a b isCond isArm
    have reaches : (evaluateInteger wide (.question type cond left right)).Reaches (.value b) :=
      ((condAgrees.complete a isCond).andThen ((selected a isCond).complete b isArm)).step
    have converted := agrees.matches reaches
    rw [Expr.value, isCond, Option.bind_some, isArm] at converted
    exact Option.some.inj converted
  · intro kept
    apply Computes.step
    apply selectArm_computes condAgrees
    intro a isCond
    rw [map_convertTo fun b isArm => kept a b isCond isArm]
    exact selected a isCond

/-- A comma operator, whose operands are evaluated as constant expressions of any type. -/
theorem agrees_comma (integer : Integer type) (leftInteger : Integer left.type)
    (leftComputes : ((evaluators wide left).value false).Computes left.value)
    (rightComputes : ((evaluators wide right).value false).Computes right.value) :
    Agrees wide (.comma type left right) ↔ (Expr.comma type left right).Kept := by
  rw [Agrees, evaluateInteger, evaluators, integer.2, commaMutation, leftInteger.2]
  constructor
  · intro agrees b isLeft isRight
    obtain ⟨a, isLeft⟩ := Option.ne_none_iff_exists'.mp isLeft
    have reaches : (((evaluators wide left).value false).andThen fun _ =>
        (evaluators wide right).value false).Reaches (.value b) :=
      (leftComputes.complete a isLeft).andThen (rightComputes.complete b isRight)
    have converted := agrees.matches reaches.step.step
    rw [Expr.value, isLeft, Option.bind_some, isRight] at converted
    exact Option.some.inj converted
  · intro kept
    apply Computes.step
    apply Computes.step
    apply leftComputes.andThen
    intro a isLeft
    rw [map_convertTo fun b isRight => kept b (isLeft ▸ nofun) isRight]
    exact rightComputes

/-- The operands of a comma operator, when all that they evaluate is right. -/
theorem value_computes (typed : expr.WellTyped) (agrees : ∀ sub ∈ expr.evaluated, Agrees wide sub) :
    ((evaluators wide expr).value false).Computes expr.value := by
  induction expr with
  | question type cond left right condIH leftIH rightIH =>
    rw [Expr.evaluated, List.forall_mem_cons, List.forall_mem_append] at agrees
    obtain ⟨node, condAgrees, armAgrees⟩ := agrees
    have leftAgrees (nonzero : cond.value ≠ some 0) : ∀ sub ∈ left.evaluated, Agrees wide sub :=
      by rwa [if_neg nonzero] at armAgrees
    have rightAgrees (zero : cond.value = some 0) : ∀ sub ∈ right.evaluated, Agrees wide sub :=
      by rwa [if_pos zero] at armAgrees
    have condAgrees := condAgrees cond cond.mem_evaluated
    have kept := (agrees_question condAgrees
      (fun nonzero => leftAgrees nonzero left left.mem_evaluated)
      (fun zero => rightAgrees zero right right.mem_evaluated)).mp node
    apply selectArm_computes condAgrees
    intro a isCond
    rw [map_convertTo fun b isArm => kept a b isCond isArm]
    apply selected_computes
    · intro nonzero
      apply leftIH typed.2.2.1 (leftAgrees _)
      exact fun isZero => nonzero (Option.some.inj (isCond.symm.trans isZero))
    · intro zero
      exact rightIH typed.2.2.2 (rightAgrees (isCond.trans (congrArg some zero)))
  | comma type left right leftIH rightIH =>
    rw [Expr.evaluated, List.forall_mem_cons, List.forall_mem_append] at agrees
    obtain ⟨node, leftAgrees, rightAgrees⟩ := agrees
    have leftComputes := leftIH typed.2.1 leftAgrees
    have rightComputes := rightIH typed.2.2 rightAgrees
    have leftInteger := typed.2.1.integer
    have kept := (agrees_comma typed.1 leftInteger leftComputes rightComputes).mp node
    have operands : ((evaluators wide (.comma type left right)).value false) =
        step (((evaluators wide left).value false).andThen fun _ =>
          (evaluators wide right).value false) := by
      change commaMutation _ _ _ false = _
      rw [commaMutation, leftInteger.2]
    rw [operands]
    apply Computes.step
    apply leftComputes.andThen
    intro a isLeft
    rw [map_convertTo fun b isRight => kept b (isLeft ▸ nofun) isRight]
    exact rightComputes
  | _ => exact agrees _ (Expr.mem_evaluated _)

/-- A node is evaluated rightly, when its operands are, exactly when it keeps its value. -/
theorem agrees_iff_kept (typed : expr.WellTyped)
    (operands : ∀ sub ∈ expr.evaluated.tail, Agrees wide sub) : Agrees wide expr ↔ expr.Kept := by
  have operand {sub : Expr} (agrees : ∀ inner ∈ sub.evaluated, Agrees wide inner) :
      Agrees wide sub := agrees sub sub.mem_evaluated
  cases expr with
  | constant kind type ivalue => exact leaf_computes_iff ivalue
  | sizeof type size => exact leaf_computes_iff (.ofNat 64 size)
  | unary op type sub => exact agrees_unary op typed.1 (operand operands)
  | not type sub => exact iff_of_true (agrees_not typed.1 (operand operands)) trivial
  | convert host type sub => exact agrees_convert host (operand operands)
  | toBool type sub => exact iff_of_true (agrees_toBool typed.1.2 (operand operands)) trivial
  | cast type sub => exact agrees_cast (operand operands)
  | binary op type left right =>
    have agrees := List.forall_mem_append.mp operands
    exact agrees_binary op typed (operand agrees.1) (operand agrees.2)
  | compare op type left right =>
    have agrees := List.forall_mem_append.mp operands
    exact iff_of_true (agrees_compare op typed (operand agrees.1) (operand agrees.2)) trivial
  | logand type left right =>
    have agrees := List.forall_mem_append.mp operands
    apply iff_of_true (agrees_logand typed.1 (operand agrees.1) _) trivial
    intro nonzero
    rw [if_neg nonzero] at agrees
    exact operand agrees.2
  | logor type left right =>
    have agrees := List.forall_mem_append.mp operands
    apply iff_of_true (agrees_logor typed.1 (operand agrees.1) _) trivial
    intro zero
    rw [if_pos zero] at agrees
    exact operand agrees.2
  | question type cond left right =>
    have agrees := List.forall_mem_append.mp operands
    apply agrees_question (operand agrees.1)
    · intro nonzero
      rw [if_neg nonzero] at agrees
      exact operand agrees.2
    · intro zero
      rw [if_pos zero] at agrees
      exact operand agrees.2
  | comma type left right =>
    have agrees := List.forall_mem_append.mp operands
    exact agrees_comma typed.1 typed.2.1.integer (value_computes typed.2.1 agrees.1)
      (value_computes typed.2.2 agrees.2)
  | bitCount op type value => exact agrees_bitCount op typed.1 (operand operands)
  | bitCountOf op type value width =>
    have agrees := List.forall_mem_append.mp operands
    exact agrees_bitCountOf op (operand agrees.1) (operand agrees.2)
  | rotate toLeft type value amount =>
    have agrees := List.forall_mem_append.mp operands
    exact agrees_rotate toLeft typed.1 (operand agrees.1) (operand agrees.2)

theorem Expr.evaluated_eq (expr : Expr) : expr.evaluated = expr :: expr.evaluated.tail := by
  cases expr <;> rfl

theorem agrees_node (typed : expr.WellTyped)
    (operands : (∀ sub ∈ expr.evaluated.tail, Agrees wide sub) ↔
      ∀ sub ∈ expr.evaluated.tail, sub.Kept) :
    (∀ sub ∈ expr.evaluated, Agrees wide sub) ↔ ∀ sub ∈ expr.evaluated, sub.Kept := by
  rw [expr.evaluated_eq, List.forall_mem_cons, List.forall_mem_cons, ← operands]
  exact and_congr_left (agrees_iff_kept typed)

theorem agrees_append {before after : List Expr}
    (beforeAgrees : (∀ sub ∈ before, Agrees wide sub) ↔ ∀ sub ∈ before, sub.Kept)
    (afterAgrees : (∀ sub ∈ after, Agrees wide sub) ↔ ∀ sub ∈ after, sub.Kept) :
    (∀ sub ∈ before ++ after, Agrees wide sub) ↔ ∀ sub ∈ before ++ after, sub.Kept := by
  rw [List.forall_mem_append, List.forall_mem_append, beforeAgrees, afterAgrees]

/-- Everything that an expression evaluates is given its value, without an undefined
operation on the host, exactly when each node keeps the value of its operands. -/
theorem evaluated_agrees_iff (wide : Int128Evaluation) (expr : Expr) (typed : expr.WellTyped) :
    (∀ sub ∈ expr.evaluated, Agrees wide sub) ↔ ∀ sub ∈ expr.evaluated, sub.Kept := by
  have none : (∀ sub ∈ ([] : List Expr), Agrees wide sub) ↔ ∀ sub ∈ ([] : List Expr), sub.Kept :=
    iff_of_true nofun nofun
  induction expr with
  | constant | sizeof => exact agrees_node typed none
  | unary op type sub ih | not type sub ih | convert host type sub ih | toBool type sub ih
  | cast type sub ih | bitCount op type sub ih => exact agrees_node typed (ih typed.2)
  | binary op type left right leftIH rightIH | compare op type left right leftIH rightIH
  | comma type left right leftIH rightIH | bitCountOf op type left right leftIH rightIH
  | rotate toLeft type left right leftIH rightIH =>
    exact agrees_node typed (agrees_append (leftIH typed.2.1) (rightIH typed.2.2))
  | logand type left right leftIH rightIH =>
    apply agrees_node typed (agrees_append (leftIH typed.2.1) _)
    split
    · exact none
    · exact rightIH typed.2.2
  | logor type left right leftIH rightIH =>
    apply agrees_node typed (agrees_append (leftIH typed.2.1) _)
    split
    · exact rightIH typed.2.2
    · exact none
  | question type cond left right condIH leftIH rightIH =>
    apply agrees_node typed (agrees_append (condIH typed.2.1) _)
    split
    · exact rightIH typed.2.2.2
    · exact leftIH typed.2.2.1

end Agreement

section Examples

private def longType : TypeRecord :=
  { declarator := .primitive, type := kTypeLong ||| kTypeSigned, size := 8 }

private def long (ivalue : Word) : Expr :=
  .constant .number longType ivalue

/-- `-9223372036854775807L - 1L`. -/
private def leastLong : Expr :=
  .binary .minus longType (.unary .uminus longType (long 9223372036854775807)) (long 1)

private def narrowOnly : Int128Evaluation where
  compareOperands _ _ _ := done .rejected
  low _ := done .rejected

private theorem longArithmetic [Compiler] : Arithmetic longType :=
  ⟨⟨rfl, rfl⟩, rfl⟩

private theorem leastLong_wellTyped [Compiler] : leastLong.WellTyped := by
  have arithmetic := longArithmetic
  exact ⟨⟨⟨arithmetic, arithmetic, arithmetic⟩, rfl, fun _ => rfl, nofun, nofun⟩,
    ⟨⟨arithmetic, arithmetic, rfl⟩, arithmetic.1⟩, arithmetic.1⟩

/-- The least number of type `long` is evaluated. -/
theorem leastLong_agrees :
    ∃ (_ : Compiler), ∀ sub ∈ leastLong.evaluated, Agrees narrowOnly sub := by
  let _ : Compiler := ⟨true⟩
  have greatest : (long 9223372036854775807).value = some 9223372036854775807 := by decide
  have negated : (Expr.unary .uminus longType (long 9223372036854775807)).value =
      some 9223372036854775809 := by decide
  have one : (long 1).value = some 1 := by decide
  refine ⟨_, (evaluated_agrees_iff narrowOnly leastLong leastLong_wellTyped).mpr ?_⟩
  simp only [leastLong, long, Expr.evaluated, List.cons_append, List.nil_append,
    List.forall_mem_cons]
  refine ⟨?_, ?_, Option.some.inj greatest, Option.some.inj one, nofun⟩
  · intro a b isLeft isRight
    cases negated.symm.trans isLeft
    cases one.symm.trans isRight
    change FitsHost _
    decide
  · intro _ isLeast
    exact absurd (greatest.symm.trans isLeast) (by decide)

/-- `(-9223372036854775807L - 1L) / -1L` divides on the host. -/
theorem not_evaluated_agrees :
    ¬∀ [Compiler] (wide : Int128Evaluation) (expr : Expr), expr.WellTyped → Agrees wide expr := by
  intro agrees
  let _ : Compiler := ⟨true⟩
  let minusOne : Expr := .unary .uminus longType (long 1)
  have arithmetic := longArithmetic
  have computes := agrees narrowOnly (.binary .div longType leastLong minusOne)
    ⟨⟨⟨arithmetic, arithmetic, arithmetic⟩, rfl, fun _ => rfl, nofun, nofun⟩,
      leastLong_wellTyped, ⟨arithmetic, arithmetic, rfl⟩, arithmetic.1⟩
  exact computes.defined 7 (by decide)

end Examples

end DaveCC.Frontend.ConstantExpression
