import DaveCC.Optimization.SccpEvaluator
import DaveCC.Optimization.SccpExecution
import DaveCC.Optimization.SccpFixedPoint

/-!
# Soundness of constant propagation

At a fixed point the recorded values are above what every run computes, provided each
step of the run is one the analysis foresees. The invariant of a run says so for every
node evaluated so far; an instruction keeps it because the context is closed under the
evaluation of instructions, an edge because it is closed under the marking of edges.
-/

namespace DaveCC.Optimization.Sccp

open DaveCC.Arith DaveCC.Backend IntFormat

namespace SCCPContext

variable {context : SCCPContext} {id : NodeId}

private theorem value_of_set {value : SCCPValue}
    (same : { context with values := Function.update context.values id value, changed :=
      true } = context) : context.values id = value := by
  have atId := congrFun (congrArg SCCPContext.values same) id
  exact atId.symm.trans (Function.update_self id value context.values)

/-- An update that changes nothing was of a value already below the recorded one. -/
theorem below_of_updateValue {incoming : SCCPValue}
    (same : context.updateValue id incoming = context) : incoming.Below (context.valueOf id) := by
  unfold updateValue at same
  unfold valueOf
  split_ifs at same ⊢ with inRange
  · split at same
    · exact .undefined _
    · rename_i isTop _
      rw [isTop]
      exact .overdefined _
    · rw [value_of_set same]
      exact .refl _
    · rw [value_of_set same]
      exact .refl _
    · rename_i isConstant
      split_ifs at same with equal
      · rw [isConstant, equal]
        exact .refl _
      · rw [value_of_set same] at isConstant
        cases isConstant
  · exact .overdefined _

theorem mem_of_markEdges {source target : BlockId} {targets : List BlockId}
    (clear : context.changed = false) (same : context.markEdges source targets = context)
    (member : target ∈ targets) : (source, target) ∈ context.executableEdges := by
  have quiet := foldl_quiet (fun context target => markEdgeExecutable_grows context source target)
    targets ((congrArg SCCPContext.changed same).trans clear) target member
  unfold markEdgeExecutable at quiet
  split_ifs at quiet with executable
  · exact of_decide_eq_true executable
  · rw [← quiet] at clear
    cases clear

variable [Compiler]

/-- Both parts of the evaluation of an instruction leave a closed context alone. -/
theorem Closed.parts {block : BlockId} (closed : Closed context)
    (executable : block ∈ context.executableBlocks)
    (inRange : block < context.gen.basicBlocks.length)
    (member : id ∈ (context.gen.block block).instructions)
    (notConst : (context.gen.nodes id).opcode.isIntConst = false)
    (notPhi : (context.gen.nodes id).opcode ≠ .phi) :
    context.evaluateDefinition (context.gen.nodes id) = context ∧
      context.evaluateResult id = context := by
  have whole := closed.instruction block executable inRange id member
  rw [evaluateInstruction] at whole
  simp only [notConst, Bool.false_eq_true, if_false, beq_iff_eq, notPhi] at whole
  have result := (evaluateResult_grows
    (context.evaluateDefinition (context.gen.nodes id)) id).quiet
      ((congrArg SCCPContext.changed whole).trans closed.unchanged)
  rw [whole] at result
  exact ⟨result.symm, by rw [← result] at whole; exact whole⟩

end SCCPContext

/-- The value `InitializeValues` gives a listed node. -/
def initialValue (inst : IRNode) : SCCPValue :=
  if inst.opcode.isIntConst then .constant inst.ivalue
  else if isPlainVariable inst.opcode then .overdefined
  else .undefined

namespace SCCPContext

theorem lt_valueCount_start {gen : Generator} {id : NodeId}
    (listed : id ∈ instructionIds gen) : id < (start gen).valueCount := by
  suffices bound : ∀ ids : List NodeId, ∀ count, id ∈ ids ∨ id < count →
      id < ids.foldl (fun count id => max count (id + 1)) count from
    bound (instructionIds gen) 1 (Or.inl listed)
  intro ids
  induction ids with
  | nil =>
    intro count either
    exact either.resolve_left List.not_mem_nil
  | cons first ids ih =>
    intro count either
    apply ih
    rcases either with member | below
    · rcases List.mem_cons.mp member with rfl | member
      · exact Or.inr (Nat.lt_of_lt_of_le (Nat.lt_succ_self _) (Nat.le_max_right _ _))
      · exact Or.inl member
    · exact Or.inr (Nat.lt_of_lt_of_le below (Nat.le_max_left _ _))

theorem values_start (gen : Generator) (id : NodeId) :
    (start gen).values id =
      if id ∈ instructionIds gen then initialValue (gen.nodes id) else .undefined := by
  have counted : ∀ listed ∈ instructionIds gen, listed < (start gen).valueCount :=
    fun listed => lt_valueCount_start
  unfold start initializeValues at counted ⊢
  refine Loop.foldl_induct
    (fun front (values : NodeId → SCCPValue) => values id =
      if id ∈ front then initialValue (gen.nodes id) else .undefined) ?_ rfl
  intro front item back values split holds
  have inRange := counted item (split ▸ List.mem_append_right front List.mem_cons_self)
  rw [if_neg (Nat.not_le.mpr inRange)]
  by_cases same : id = item
  · subst same
    unfold initialValue isPlainVariable at holds ⊢
    split_ifs at holds ⊢
    all_goals simp_all
  · have elsewhere (value : SCCPValue) :
        Function.update values item value id = values id := Function.update_of_ne same _ _
    split_ifs <;> simp_all

end SCCPContext

variable [Compiler]

/-- The nodes whose recorded constant is zero exactly when their value is. A branch tests
the constant as a whole word, and a type may be narrower than the constant recorded for
it. -/
inductive TruthTyped (gen : Generator) (id : NodeId) : Prop where
  | wide (whole : (nodeFormat gen id).bits = 64)
  | constant (isConst : (gen.nodes id).opcode.isIntConst = true)
      (canonical : (nodeFormat gen id).Canonical (gen.nodes id).ivalue)
  | load (isLoad : isIntegerLoad (gen.nodes id).opcode = true)
      (fits : (loadFormat (gen.nodes id).opcode).bits ≤ (nodeFormat gen id).bits)
  | operation (supported : isSupportedIntegerExpression (gen.nodes id).opcode = true)
      (masks : (gen.nodes id).opcode ≠ .mova ∧ (gen.nodes id).opcode ≠ .adda ∧
        (gen.nodes id).opcode ≠ .suba)
      (storage : FillsStorage (gen.nodes id).type)

/-- The value covers a word of the node: a constant is that word in the node's type. -/
structure Covers (gen : Generator) (id : NodeId) (value : SCCPValue) (word : BitVec 64) :
    Prop where
  defined : value ≠ .undefined
  agrees : ∀ constant, value = .constant constant →
    (nodeFormat gen id).read word = (nodeFormat gen id).read constant
  truth : ∀ constant, value = .constant constant → TruthTyped gen id →
    (constant = 0 ↔ (nodeFormat gen id).read constant = 0)

variable {gen : Generator} {id : NodeId} {word : BitVec 64}

theorem covers_overdefined : Covers gen id .overdefined word where
  defined := SCCPValue.noConfusion
  agrees := fun _ impossible => by cases impossible
  truth := fun _ impossible => by cases impossible

variable {constant : BitVec 64}

theorem covers_constant (agrees : (nodeFormat gen id).read word = (nodeFormat gen id).read constant)
    (truth : TruthTyped gen id → (constant = 0 ↔ (nodeFormat gen id).read constant = 0)) :
    Covers gen id (.constant constant) word where
  defined := SCCPValue.noConfusion
  agrees := fun _ same => by cases same; exact agrees
  truth := fun _ same => by cases same; exact truth

theorem Covers.mono {lower upper : SCCPValue} (covers : Covers gen id lower word)
    (below : lower.Below upper) : Covers gen id upper word where
  defined := below.ne_undefined covers.defined
  agrees := by
    intro constant same
    subst same
    exact covers.agrees constant (below.eq_constant covers.defined)
  truth := by
    intro constant same
    subst same
    exact covers.truth constant (below.eq_constant covers.defined)

omit [Compiler] in
theorem excluded_of_isVariable {opcode : IROpcode} (isVariable : opcode.isVariable = true) :
    opcode.isIntConst = false ∧ isIntegerLoad opcode = false ∧
      isSupportedIntegerExpression opcode = false := by
  cases opcode <;> first | exact ⟨rfl, rfl, rfl⟩ | cases isVariable

/-- A version is only ever tested when its type is a whole word. -/
theorem truth_of_isVariable (isVariable : (gen.nodes id).opcode.isVariable = true)
    (typed : TruthTyped gen id) : constant = 0 ↔ (nodeFormat gen id).read constant = 0 := by
  have ⟨notConst, notLoad, notSupported⟩ := excluded_of_isVariable isVariable
  cases typed with
  | wide whole => exact (canonical_of_bits_eq whole constant).read_eq_zero_iff.symm
  | constant isConst _ => exact absurd isConst (by rw [notConst]; exact Bool.noConfusion)
  | load isLoad _ => exact absurd isLoad (by rw [notLoad]; exact Bool.noConfusion)
  | operation supported _ _ =>
    exact absurd supported (by rw [notSupported]; exact Bool.noConfusion)

/-- The format of an integer operation's right operand. -/
def rightFormat (gen : Generator) (inst : IRNode) : IntFormat :=
  if isUnaryInteger inst.opcode then addressFormat
  else (inst.inputs[1]?.map (nodeFormat gen)).getD addressFormat

/-- An instruction the analysis evaluates as the run does. -/
structure InstructionSafe (gen : Generator) (env : Env) (inst : IRNode) : Prop where
  /-- An integer store fills its variable, from a value at least as wide. -/
  store : isIntegerStore inst.opcode = true →
    ∀ version ∈ definedVersion gen inst, ∀ value ∈ inst.inputs[1]?,
      leavesUndefined gen value = false ∧
      (nodeFormat gen version).bits ≤ storeBits inst.opcode ∧
      (nodeFormat gen version).bits ≤ (nodeFormat gen value).bits
  /-- An integer load reads no more than its variable holds. -/
  load : isIntegerLoad inst.opcode = true →
    ∀ source ∈ inst.inputs.head?, readsVersion gen source = true →
      min (wordFormat inst.type).bits (loadFormat inst.opcode).bits ≤ (nodeFormat gen source).bits
  /-- An integer operation is well typed, on operands the evaluator is exact for. -/
  operation : isIntegerOperation gen inst = true → ∀ left ∈ inst.inputs.head?,
    leavesUndefined gen left = false ∧
    (∀ right ∈ inst.inputs[1]?, leavesUndefined gen right = false) ∧
    Typed gen inst (gen.nodes left) (rightFormat gen inst) ∧
    ∀ a b, operand gen env left = some a → rightOperand gen env inst = some b →
      EvaluatorSafe inst.opcode (wordFormat inst.type) (nodeFormat gen left) a b

open SCCPContext

/-- A block whose successors the analysis finds: it has an instruction, and a conditional
branch at its end tests a value the analysis follows. When the branch is not taken, its
other edge does not lead to the label's block as well. -/
structure EdgeSafe (gen : Generator) (env : Env) (block : BlockId) : Prop where
  nonempty : (gen.block block).instructions ≠ []
  branch : ∀ terminator ∈ (gen.block block).endCode, ∀ condition label rest,
    (gen.nodes terminator).opcode.isConditionalBranch = true →
    (gen.nodes terminator).inputs = condition :: label :: rest →
    leavesUndefined gen condition = false ∧ TruthTyped gen condition ∧
    ∀ word, operand gen env condition = some word →
      takesBranch (gen.nodes terminator).opcode word = false →
      (gen.nodes label).block ∉ (gen.block block).outEdges.erase (gen.nodes label).block

/-- The step a run is about to make is one the analysis foresees. -/
def Config.Safe (gen : Generator) (config : Config) : Prop :=
  match config.rest with
  | id :: _ => InstructionSafe gen config.env (gen.nodes id)
  | [] => EdgeSafe gen config.env config.block

/-! ## Instructions -/

section Instructions

variable {context : SCCPContext} {env : Env}

/-- The recorded values cover the words of a run. -/
def CoversEnv (context : SCCPContext) (env : Env) : Prop :=
  ∀ id word, env id = some word → leavesUndefined context.gen id = false →
    Covers context.gen id (context.valueOf id) word

omit [Compiler] in
theorem read_of_le {narrow wide : IntFormat} (le : narrow.bits ≤ wide.bits)
    {first second : BitVec 64} (same : wide.read first = wide.read second) :
    narrow.read first = narrow.read second := by
  have truncated := congrArg (·.setWidth narrow.bits) same
  simpa only [IntFormat.read, BitVec.setWidth_setWidth_of_le _ le] using truncated

omit [Compiler] in
/-- Loading two words that agree on the bits of their variable. -/
theorem read_canonicalize_of_le {result load source : IntFormat}
    (fits : min result.bits load.bits ≤ source.bits) {first second : BitVec 64}
    (same : source.read first = source.read second) :
    result.read (load.canonicalize first) = result.read (load.canonicalize second) := by
  rcases Nat.le_total load.bits source.bits with narrower | wider
  · rw [canonicalize, canonicalize, read_of_le narrower same]
  · rcases Nat.le_total result.bits load.bits with within | beyond
    · rw [Nat.min_eq_left within] at fits
      rw [read_of_le within (load.read_canonicalize first),
        read_of_le within (load.read_canonicalize second), read_of_le fits same]
    · rw [Nat.min_eq_right beyond] at fits
      rw [canonicalize, canonicalize, read_of_le fits same]

omit [Compiler] in
theorem truncateLoad_constant (opcode : IROpcode) (constant : BitVec 64) :
    truncateLoad opcode (.constant constant) =
      .constant ((loadFormat opcode).canonicalize constant) := by
  have masks (format : IntFormat) (narrow : format.bits < 64) :
      SCCPValue.constant (maskInteger format.bits format.isUnsigned constant) =
        .constant (format.canonicalize constant) := by
    rw [maskInteger_eq_canonicalize format narrow]
  have whole : SCCPValue.constant constant = .constant (addressFormat.canonicalize constant) := by
    rw [canonicalize_of_wide rfl]
  cases opcode
  case load8 => exact masks (loadFormat .load8) (by decide)
  case load16 => exact masks (loadFormat .load16) (by decide)
  case load32 => exact masks (loadFormat .load32) (by decide)
  case loadu8 => exact masks (loadFormat .loadu8) (by decide)
  case loadu16 => exact masks (loadFormat .loadu16) (by decide)
  case loadu32 => exact masks (loadFormat .loadu32) (by decide)
  all_goals exact whole

omit [Compiler] in
@[simp] theorem truncateLoad_overdefined (opcode : IROpcode) :
    truncateLoad opcode .overdefined = .overdefined := by
  cases opcode <;> rfl

variable {contents : BitVec 64}

/-- A load of a version of a safe variable. -/
theorem covers_load {source : NodeId} (isLoad : isIntegerLoad (context.gen.nodes id).opcode = true)
    (fits : min (nodeFormat context.gen id).bits (loadFormat (context.gen.nodes id).opcode).bits ≤
      (nodeFormat context.gen source).bits)
    (covers : Covers context.gen source (context.valueOf source) contents) :
    Covers context.gen id (truncateLoad (context.gen.nodes id).opcode (context.valueOf source))
      ((loadFormat (context.gen.nodes id).opcode).canonicalize contents) := by
  cases value : context.valueOf source with
  | undefined => exact absurd value covers.defined
  | overdefined =>
    exact covers_overdefined
  | constant constant =>
    rw [truncateLoad_constant]
    apply covers_constant
    · exact read_canonicalize_of_le fits (covers.agrees constant value)
    · intro typed
      cases typed with
      | wide whole => exact (canonical_of_bits_eq whole _).read_eq_zero_iff.symm
      | load _ narrow =>
        constructor
        · intro zero
          rw [zero]
          exact BitVec.setWidth_zero _ _
        · intro zero
          have low := read_of_le narrow (zero.trans (BitVec.setWidth_zero _ _).symm)
          have canonical := canonical_canonicalize
            (loadFormat (context.gen.nodes id).opcode) constant
          exact canonical.read_eq_zero_iff.mp (low.trans (BitVec.setWidth_zero _ _))
      | constant isConst _ =>
        cases opcode : (context.gen.nodes id).opcode <;> rw [opcode] at isLoad isConst <;>
          contradiction
      | operation supported _ _ =>
        cases opcode : (context.gen.nodes id).opcode <;> rw [opcode] at isLoad supported <;>
          contradiction

theorem evaluateOperation_ne_undefined (gen : Generator) (inst lhsNode : IRNode)
    (a b : BitVec 64) : evaluateOperation gen inst lhsNode a b ≠ .undefined := by
  have typed (word : BitVec 64) : typedConstantValue inst word ≠ .undefined := by
    unfold typedConstantValue
    split
    · split <;> exact SCCPValue.noConfusion
    · exact SCCPValue.noConfusion
  unfold evaluateOperation truthValue
  dsimp only
  split
  all_goals
    first
    | exact typed _
    | exact SCCPValue.noConfusion
    | skip
  all_goals
    split
    all_goals
      first
      | exact typed _
      | exact SCCPValue.noConfusion
      | skip
  all_goals
    split
    all_goals
      first
      | exact typed _
      | exact SCCPValue.noConfusion

/-- What the evaluator makes of operands it knows covers the value of the operation. -/
theorem covers_evaluateOperation {left : NodeId} {right : IntFormat} {a b : BitVec 64}
    (supported : isSupportedIntegerExpression (gen.nodes id).opcode = true)
    (typed : Typed gen (gen.nodes id) (gen.nodes left) right)
    (leftCanonical : (nodeFormat gen left).Canonical a) (rightCanonical : right.Canonical b)
    (safe : EvaluatorSafe (gen.nodes id).opcode (nodeFormat gen id) (nodeFormat gen left) a b)
    (evaluates : ∀ value, (gen.nodes id).opcode.integerValue (nodeFormat gen id)
      (nodeFormat gen left) a b = some value → word = value) :
    Covers gen id (evaluateOperation gen (gen.nodes id) (gen.nodes left) a b) word := by
  have denotes := (evaluateOperation_denotes_iff typed leftCanonical rightCanonical
    supported).mpr safe
  cases value : evaluateOperation gen (gen.nodes id) (gen.nodes left) a b with
  | undefined => exact absurd value (evaluateOperation_ne_undefined _ _ _ _ _)
  | overdefined => exact covers_overdefined
  | constant constant =>
    have equal := evaluates _ (denotes constant value)
    apply covers_constant
    · rw [equal]
      exact read_canonicalize _ constant
    · intro truth
      cases truth with
      | wide whole =>
        exact (canonical_of_bits_eq whole constant).read_eq_zero_iff.symm
      | operation _ masks storage =>
        exact (evaluateOperation_canonical storage masks value).read_eq_zero_iff.symm
      | constant isConst _ =>
        cases opcode : (gen.nodes id).opcode <;> rw [opcode] at supported isConst <;>
          contradiction
      | load isLoad _ =>
        cases opcode : (gen.nodes id).opcode <;> rw [opcode] at supported isLoad <;>
          contradiction

variable {input : NodeId} {found : BitVec 64}

/-- The recorded constant, normalised, is the operand the run finds. -/
theorem normalize_eq_operand {constant : BitVec 64} (covers : CoversEnv context env)
    (tracked : leavesUndefined context.gen input = false)
    (finds : operand context.gen env input = some found)
    (value : context.valueOf input = .constant constant) :
    normalizeIntegerValue constant (context.gen.nodes input).type = found := by
  obtain ⟨word, evaluated, canonical⟩ := Option.map_eq_some_iff.mp finds
  have agrees := (covers input word evaluated tracked).agrees constant value
  rw [normalizeIntegerValue_eq, ← canonical]
  exact congrArg (nodeFormat context.gen input).extend agrees.symm

theorem valueOf_ne_undefined (covers : CoversEnv context env)
    (tracked : leavesUndefined context.gen input = false)
    (finds : operand context.gen env input = some found) : context.valueOf input ≠ .undefined := by
  obtain ⟨word, evaluated, _⟩ := Option.map_eq_some_iff.mp finds
  exact (covers input word evaluated tracked).defined

theorem operand_canonical (finds : operand gen env input = some found) :
    (nodeFormat gen input).Canonical found := by
  obtain ⟨word, _, canonical⟩ := Option.map_eq_some_iff.mp finds
  rw [← canonical]
  exact canonical_canonicalize _ word

theorem rightOperand_canonical {inst : IRNode} (finds : rightOperand gen env inst = some found) :
    (rightFormat gen inst).Canonical found := by
  unfold rightOperand at finds
  unfold rightFormat
  split_ifs at finds ⊢
  · cases finds
    exact canonical_zero
  · obtain ⟨right, atRight, finds⟩ := Option.bind_eq_some_iff.mp finds
    rw [atRight]
    exact operand_canonical finds

/-- The evaluation of an integer operation. -/
theorem covers_evaluateIntegerExpression (covers : CoversEnv context env)
    (supported : isSupportedIntegerExpression (context.gen.nodes id).opcode = true)
    (produces : MayProduce context.gen env (context.gen.nodes id) word)
    (safe : InstructionSafe context.gen env (context.gen.nodes id)) :
    Covers context.gen id (context.evaluateIntegerExpression (context.gen.nodes id)) word := by
  unfold evaluateIntegerExpression
  cases inputs : (context.gen.nodes id).inputs with
  | nil => exact covers_overdefined
  | cons left rest =>
    dsimp only
    split
    · exact covers_overdefined
    · rename_i noVariable
      have isOperation : isIntegerOperation context.gen (context.gen.nodes id) = true := by
        rw [isIntegerOperation, supported, inputs]
        simpa using noVariable
      have isLeft : left ∈ (context.gen.nodes id).inputs.head? := by rw [inputs]; rfl
      obtain ⟨a, b, findsLeft, findsRight, evaluates⟩ :=
        produces.operation isOperation left isLeft
      obtain ⟨leftTracked, rightTracked, typed, evaluatorSafe⟩ :=
        safe.operation isOperation left isLeft
      have second : (context.gen.nodes id).inputs[1]? = rest.head? := by
        rw [inputs, List.head?_eq_getElem?]
        rfl
      have evaluated := covers_evaluateOperation supported typed
        (operand_canonical findsLeft) (rightOperand_canonical findsRight)
        (evaluatorSafe a b findsLeft findsRight) evaluates
      have leftDefined := valueOf_ne_undefined covers leftTracked findsLeft
      unfold rightOperand at findsRight
      cases leftValue : context.valueOf left with
      | undefined => exact absurd leftValue leftDefined
      | overdefined => exact covers_overdefined
      | constant leftConstant =>
        have leftEqual := normalize_eq_operand covers leftTracked findsLeft leftValue
        cases unary : isUnaryInteger (context.gen.nodes id).opcode with
        | true =>
          simp only [unary, if_true, Option.some.injEq] at findsRight
          simp only [if_true, Option.bind_none, leftEqual, findsRight]
          exact evaluated
        | false =>
          simp only [unary, Bool.false_eq_true, if_false] at findsRight ⊢
          obtain ⟨right, atRight, findsRight⟩ := Option.bind_eq_some_iff.mp findsRight
          have tracked := rightTracked right atRight
          have rightDefined := valueOf_ne_undefined covers tracked findsRight
          rw [second] at atRight
          simp only [atRight, Option.elim_some]
          cases rightValue : context.valueOf right with
          | undefined => exact absurd rightValue rightDefined
          | overdefined => exact covers_overdefined
          | constant rightConstant =>
            have rightEqual :=
              normalize_eq_operand covers tracked findsRight rightValue
            simp only [Option.bind_some, leftEqual, rightEqual]
            exact evaluated

omit [Compiler] in
/-- A safe variable's node is the variable itself or one of its versions. -/
theorem isPlainVariable_of_safe {node : IRNode}
    (safe : isSafeSSASymbol (variableSymbol node) = true)
    (notVersion : isVersion node.opcode = false) : isPlainVariable node.opcode = true := by
  have unsafe_none : isSafeSSASymbol none = false := rfl
  unfold variableSymbol at safe
  cases opcode : node.opcode <;> rw [opcode] at notVersion <;>
    simp only [opcode, unsafe_none, Bool.false_eq_true] at safe <;>
    first | rfl | cases notVersion

omit [Compiler] in
theorem tracked_of_isVersion {source : NodeId}
    (version : isVersion (gen.nodes source).opcode = true) :
    leavesUndefined gen source = false := by
  apply tracked_of_isVariable
  cases opcode : (gen.nodes source).opcode <;> rw [opcode] at version <;>
    first | rfl | cases version

/-- What the analysis knows of a function besides the values it computes. -/
structure Listed (context : SCCPContext) (id : NodeId) : Prop where
  plain : ∀ input ∈ (context.gen.nodes id).inputs,
    isPlainVariable (context.gen.nodes input).opcode = true → context.valueOf input = .overdefined

/-- The value an instruction evaluates to is covered at a fixed point. -/
theorem covers_result (covers : CoversEnv context env) (listed : Listed context id)
    (fixed : context.evaluateResult id = context) (some : hasResult (context.gen.nodes id) = true)
    (tracked : leavesUndefined context.gen id = false)
    (produces : MayProduce context.gen env (context.gen.nodes id) word)
    (safe : InstructionSafe context.gen env (context.gen.nodes id)) :
    Covers context.gen id (context.valueOf id) word := by
  have above {incoming : SCCPValue} (covered : Covers context.gen id incoming word)
      (same : context.updateValue id incoming = context) :
      Covers context.gen id (context.valueOf id) word :=
    covered.mono (below_of_updateValue same)
  unfold evaluateResult at fixed
  dsimp only at fixed
  unfold hasResult at some
  split_ifs at fixed with isCall isStore unused isInvalid silent isEffect isLoad supported
    isVariable isExpression
  · exact above covers_overdefined fixed
  · rw [if_pos isStore, unused] at some
    cases some
  · exact above covers_overdefined fixed
  · exact above covers_overdefined fixed
  · simp only [Bool.or_eq_true, beq_iff_eq] at silent
    all_goals simp_all [IROpcode.isVariable]
  · exact above covers_overdefined fixed
  · cases inputs : (context.gen.nodes id).inputs with
    | nil =>
      simp only [inputs] at fixed
      exact above covers_overdefined fixed
    | cons source rest =>
      simp only [inputs] at fixed
      split_ifs at fixed with safeSymbol
      · cases version : isVersion (context.gen.nodes source).opcode with
        | false =>
          have plain := listed.plain source (by rw [inputs]; exact List.mem_cons_self)
            (isPlainVariable_of_safe safeSymbol version)
          rw [plain, truncateLoad_overdefined] at fixed
          exact above covers_overdefined fixed
        | true =>
          have isSource : source ∈ (context.gen.nodes id).inputs.head? := by
            rw [inputs]
            rfl
          have reads : readsVersion context.gen source = true := by
            rw [readsVersion, version, safeSymbol]
            rfl
          obtain ⟨contents, evaluated, rfl⟩ := produces.load isLoad source isSource reads
          have fits := safe.load isLoad source isSource reads
          exact above (covers_load isLoad fits
            (covers source contents evaluated (tracked_of_isVersion version))) fixed
      · exact above covers_overdefined fixed
  · exact above (covers_evaluateIntegerExpression covers supported produces safe) fixed
  · exact above covers_overdefined fixed
  · exact above covers_overdefined fixed
  · simp_all [leavesUndefined]

/-- The contents a store leaves in a version are covered at a fixed point. -/
theorem covers_definition {version : NodeId} (form : SSAForm context.gen)
    (covers : CoversEnv context env)
    (fixed : context.evaluateDefinition (context.gen.nodes id) = context)
    (defines : definedVersion context.gen (context.gen.nodes id) = some version)
    (stores : MayStore context.gen env (context.gen.nodes id) contents)
    (safe : InstructionSafe context.gen env (context.gen.nodes id)) :
    Covers context.gen version (context.valueOf version) contents := by
  have fills := fun isStore value member =>
    safe.store isStore version defines value member
  unfold definedVersion at defines
  split_ifs at defines with marked
  obtain ⟨isFirst, isSSA⟩ := Option.filter_eq_some_iff.mp defines
  simp only [Bool.and_eq_true] at marked
  have isVariable : (context.gen.nodes version).opcode.isVariable = true := by
    rw [eq_of_beq isSSA]
    rfl
  cases inputs : (context.gen.nodes id).inputs with
  | nil => simp [inputs] at isFirst
  | cons first rest =>
    obtain rfl : first = version := by simpa [inputs] using isFirst
    have symbol := form.definition id first rest marked.1 inputs (eq_of_beq isSSA)
    unfold evaluateDefinition at fixed
    simp only [marked.1, if_true, inputs, symbol, eq_of_beq isSSA, bne_self_eq_false,
      Bool.or_self, Bool.false_eq_true, if_false] at fixed
    cases rest with
    | nil => exact covers_overdefined.mono (below_of_updateValue fixed)
    | cons value rest =>
      split_ifs at fixed with follows
      · simp only [Bool.and_eq_true] at follows
        have isValue : value ∈ (context.gen.nodes id).inputs[1]? := by rw [inputs]; rfl
        obtain ⟨tracked, stored, narrower⟩ := fills follows.1.2 value isValue
        obtain ⟨found, finds, low⟩ := stores follows.1.2 value isValue
        apply Covers.mono _ (below_of_updateValue fixed)
        have defined := valueOf_ne_undefined covers tracked finds
        cases recorded : context.valueOf value with
        | undefined => exact absurd recorded defined
        | overdefined => exact covers_overdefined
        | constant constant =>
          have equal := normalize_eq_operand covers tracked finds recorded
          rw [normalizeIntegerValue_eq] at equal
          apply covers_constant _ (truth_of_isVariable isVariable)
          have lowBits := congrArg (·.setWidth (nodeFormat context.gen first).bits) low
          simp only [BitVec.setWidth_setWidth_of_le _ stored] at lowBits
          have agrees : (nodeFormat context.gen value).read constant =
              (nodeFormat context.gen value).read found := by
            rw [← equal]
            exact (read_canonicalize _ constant).symm
          exact lowBits.trans (read_of_le narrower agrees).symm
      · exact covers_overdefined.mono (below_of_updateValue fixed)

/-! ## Phis -/

omit [Compiler] in
theorem below_mergeValue (left right : SCCPValue) :
    left.Below (mergeValue left right) ∧ right.Below (mergeValue left right) := by
  cases left with
  | undefined => exact ⟨.undefined _, .refl _⟩
  | overdefined => cases right <;> exact ⟨.refl _, by constructor⟩
  | constant first =>
    cases right with
    | undefined => exact ⟨.refl _, .undefined _⟩
    | overdefined => exact ⟨.overdefined _, .refl _⟩
    | constant second =>
      simp only [mergeValue]
      split_ifs with same
      · subst same
        exact ⟨.refl _, .refl _⟩
      · exact ⟨.overdefined _, .overdefined _⟩

omit [Compiler] in
/-- A merge is above its start and above the value on every executable edge. -/
theorem below_merge (context : SCCPContext) (block : BlockId)
    (edges : List (BlockId × NodeId)) (start : SCCPValue) :
    let merged := edges.foldl
      (fun result edge =>
        if context.edgeIsExecutable edge.1 block then
          mergeValue result (context.valueOf edge.2)
        else result) start
    start.Below merged ∧
      ∀ edge ∈ edges, context.edgeIsExecutable edge.1 block = true →
        (context.valueOf edge.2).Below merged := by
  induction edges generalizing start with
  | nil => exact ⟨.refl _, fun _ member => absurd member List.not_mem_nil⟩
  | cons first edges ih =>
    dsimp only [List.foldl_cons]
    cases executable : context.edgeIsExecutable first.1 block with
    | false =>
      rw [if_neg Bool.false_ne_true]
      refine ⟨(ih start).1, ?_⟩
      intro edge member taken
      rcases List.mem_cons.mp member with rfl | member
      · rw [executable] at taken
        cases taken
      · exact (ih start).2 edge member taken
    | true =>
      rw [if_pos rfl]
      have ⟨startBelow, firstBelow⟩ := below_mergeValue start (context.valueOf first.2)
      have ⟨accBelow, rest⟩ := ih (mergeValue start (context.valueOf first.2))
      refine ⟨startBelow.trans accBelow, ?_⟩
      intro edge member taken
      rcases List.mem_cons.mp member with rfl | member
      · exact firstBelow.trans accBelow
      · exact rest edge member taken

variable {block : BlockId}

/-- The word a phi takes from an executable edge is covered at a fixed point. -/
theorem covers_phi {source : BlockId} {index : Nat} (form : SSAForm context.gen)
    (covers : CoversEnv context env) (fixed : context.evaluateInstruction id = context)
    (member : id ∈ (context.gen.block block).instructions)
    (isPhi : (context.gen.nodes id).opcode = .phi)
    (operands : (context.gen.nodes id).inputs.length = (context.gen.block block).inEdges.length)
    (atIndex : (context.gen.block block).inEdges[index]? = some source)
    (executable : (source, block) ∈ context.executableEdges)
    (takes : (context.gen.nodes id).inputs[index]?.bind env = some word) :
    Covers context.gen id (context.valueOf id) word := by
  obtain ⟨input, isInput, evaluated⟩ := Option.bind_eq_some_iff.mp takes
  have ⟨isVariable, sameType⟩ := form.phiInput id isPhi input (List.mem_of_getElem? isInput)
  have sameFormat : nodeFormat context.gen input = nodeFormat context.gen id := by
    rw [nodeFormat, nodeFormat, sameType]
  have phiVariable : (context.gen.nodes id).opcode.isVariable = true := by
    rw [isPhi]
    rfl
  have covered := covers input word evaluated (tracked_of_isVariable isVariable)
  have below : (context.valueOf input).Below (context.valueOf id) := by
    unfold evaluateInstruction at fixed
    simp only [isPhi, show IROpcode.phi.isIntConst = false from rfl, Bool.false_eq_true,
      if_false, beq_self_eq_true, if_true] at fixed
    refine SCCPValue.Below.trans ?_ (below_of_updateValue fixed)
    split_ifs
    · unfold evaluatePhi
      rw [form.owner block id member]
      have inside : index < (context.gen.nodes id).inputs.length :=
        (List.getElem?_eq_some_iff.mp isInput).1
      have counted : ((context.gen.nodes id).inputs.length == 0 ||
          (context.gen.nodes id).inputs.length !=
            (context.gen.block block).inEdges.length) = false := by
        rw [operands] at inside ⊢
        simp only [bne_self_eq_false, Bool.or_false, beq_eq_false_iff_ne]
        exact Nat.ne_of_gt (Nat.zero_lt_of_lt inside)
      rw [if_neg (by rw [counted]; exact Bool.false_ne_true)]
      apply (below_merge context block _ .undefined).2 (source, input) _ (decide_eq_true executable)
      apply List.mem_of_getElem? (i := index)
      rw [List.getElem?_zip_eq_some]
      exact ⟨atIndex, isInput⟩
    · exact .overdefined _
  have raised := covered.mono below
  exact
    { defined := raised.defined
      agrees := by
        intro constant value
        rw [← sameFormat]
        exact raised.agrees constant value
      truth := fun constant _ => truth_of_isVariable phiVariable }

/-- A phi without an operand for every edge is overdefined. -/
theorem covers_short_phi (form : SSAForm context.gen)
    (fixed : context.evaluateInstruction id = context)
    (member : id ∈ (context.gen.block block).instructions)
    (isPhi : (context.gen.nodes id).opcode = .phi)
    (operands : (context.gen.nodes id).inputs.length ≠ (context.gen.block block).inEdges.length) :
    Covers context.gen id (context.valueOf id) word := by
  have evaluated : context.evaluatePhi (context.gen.nodes id) = .overdefined := by
    unfold evaluatePhi
    rw [form.owner block id member]
    simp [operands]
  unfold evaluateInstruction at fixed
  simp only [isPhi, show IROpcode.phi.isIntConst = false from rfl, Bool.false_eq_true,
    if_false, beq_self_eq_true, if_true, evaluated, ite_self] at fixed
  exact covers_overdefined.mono (below_of_updateValue fixed)

/-- A branch on the recorded constant goes where the branch on the value goes. -/
theorem takesBranch_eq {opcode : IROpcode} {condition : NodeId} {constant : BitVec 64}
    (covers : CoversEnv context env) (tracked : leavesUndefined context.gen condition = false)
    (typed : TruthTyped context.gen condition)
    (finds : operand context.gen env condition = some found)
    (value : context.valueOf condition = .constant constant) :
    takesBranch opcode constant = takesBranch opcode found := by
  obtain ⟨word, evaluated, _⟩ := Option.map_eq_some_iff.mp finds
  have truth := (covers condition word evaluated tracked).truth constant value typed
  have equal := normalize_eq_operand covers tracked finds value
  rw [normalizeIntegerValue_eq] at equal
  have agrees : (nodeFormat context.gen condition).read found =
      (nodeFormat context.gen condition).read constant := by
    rw [← equal]
    exact read_canonicalize _ constant
  have same : constant = 0 ↔ found = 0 := by
    rw [truth, ← agrees]
    exact (operand_canonical finds).read_eq_zero_iff
  unfold takesBranch
  simp only [bne, beq_eq_decide, decide_eq_decide.mpr same]

/-- The edge a run leaves a block over is executable at a fixed point. -/
theorem mem_executableEdges {target : BlockId} (clear : context.changed = false)
    (covers : CoversEnv context env) (fixed : context.markSuccessors block = context)
    (leaves : Leaves context.gen env block target) (safe : EdgeSafe context.gen env block) :
    (block, target) ∈ context.executableEdges := by
  have ⟨isSuccessor, branches⟩ := leaves
  unfold markSuccessors at fixed
  dsimp only at fixed
  cases ends : (context.gen.block block).endCode with
  | none => exact absurd (List.getLast?_eq_none_iff.mp ends) safe.nonempty
  | some terminator =>
    rw [ends] at fixed
    dsimp only at fixed
    split at fixed
    · rename_i condition label rest isConditional inputs
      split_ifs at fixed
      · exact mem_of_markEdges clear fixed isSuccessor
      · obtain ⟨tracked, typed, separate⟩ :=
          safe.branch terminator ends condition label rest isConditional inputs
        obtain ⟨found, finds, goes⟩ :=
          branches terminator ends condition label rest isConditional inputs
        cases value : context.valueOf condition with
        | undefined => exact absurd value (valueOf_ne_undefined covers tracked finds)
        | overdefined =>
          rw [value] at fixed
          exact mem_of_markEdges clear fixed isSuccessor
        | constant constant =>
          rw [value] at fixed
          apply mem_of_markEdges clear fixed
          rw [List.mem_filter]
          refine ⟨isSuccessor, ?_⟩
          rw [takesBranch_eq covers tracked typed finds value]
          cases takes : takesBranch (context.gen.nodes terminator).opcode found with
          | true =>
            rw [if_pos takes] at goes
            simp [goes]
          | false =>
            rw [if_neg (by rw [takes]; exact Bool.false_ne_true)] at goes
            have different : target ≠ (context.gen.nodes label).block := by
              intro same
              exact separate found finds takes (same ▸ goes)
            simp [different]
    · exact mem_of_markEdges clear fixed isSuccessor

end Instructions

end DaveCC.Optimization.Sccp
