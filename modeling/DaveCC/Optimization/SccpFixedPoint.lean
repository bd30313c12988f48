import DaveCC.Optimization.Sccp

/-!
# The fixed point of constant propagation

Every step of `Analyze` moves values up the lattice and adds edges, and says so in
`changed`. When a pass leaves `changed` clear, none of its steps has done anything, so
every executable block is closed under the evaluation of its instructions and the marking
of its successors.
-/

namespace DaveCC.Optimization.Sccp

open DaveCC.Backend DaveCC.Loop

inductive SCCPValue.Below : SCCPValue → SCCPValue → Prop where
  | undefined (value : SCCPValue) : Below .undefined value
  | refl (value : SCCPValue) : Below value value
  | overdefined (value : SCCPValue) : Below value .overdefined

theorem SCCPValue.Below.trans {first second third : SCCPValue}
    (lower : first.Below second) (upper : second.Below third) : first.Below third := by
  cases lower with
  | undefined => exact .undefined third
  | refl => exact upper
  | overdefined =>
    cases upper with
    | refl => exact .overdefined first
    | overdefined => exact .overdefined first

theorem SCCPValue.Below.ne_undefined {lower upper : SCCPValue} (below : lower.Below upper)
    (defined : lower ≠ .undefined) : upper ≠ .undefined := by
  cases below with
  | undefined => exact absurd rfl defined
  | refl => exact defined
  | overdefined => exact SCCPValue.noConfusion

theorem SCCPValue.Below.eq_constant {lower : SCCPValue} {constant : BitVec 64}
    (below : lower.Below (.constant constant)) (defined : lower ≠ .undefined) :
    lower = .constant constant := by
  cases below with
  | undefined => exact absurd rfl defined
  | refl => rfl

/-- `EvaluateInstruction` falls off its end on such an instruction: its value is never
updated. -/
def leavesUndefined (gen : Generator) (id : NodeId) : Bool :=
  let inst := gen.nodes id
  !inst.opcode.isExpression && !inst.opcode.isVariable && !inst.opcode.isStore &&
    inst.valueState == .valid && inst.dest.isNone && !gen.hasSideEffects inst

namespace SCCPContext

variable {context next : SCCPContext} {id : NodeId}

/-- A step of the analysis: it keeps the function, moves up, and says so when it has
done anything. -/
structure Grows (context next : SCCPContext) : Prop where
  gen : next.gen = context.gen
  valueCount : next.valueCount = context.valueCount
  values : ∀ id, (context.values id).Below (next.values id)
  skips : ∀ id, leavesUndefined context.gen id = true → next.values id = context.values id
  blocks : context.executableBlocks ⊆ next.executableBlocks
  edges : ∀ source target, (source, target) ∈ next.executableEdges →
    (source, target) ∈ context.executableEdges ∨ target ∈ next.executableBlocks
  quiet : next.changed = false → next = context

theorem Grows.refl (context : SCCPContext) : Grows context context where
  gen := rfl
  valueCount := rfl
  values := fun _ => .refl _
  skips := fun _ _ => rfl
  blocks := Finset.Subset.refl _
  edges := fun _ _ => Or.inl
  quiet := fun _ => rfl

theorem Grows.trans {last : SCCPContext} (first : Grows context next)
    (second : Grows next last) : Grows context last where
  gen := second.gen.trans first.gen
  valueCount := second.valueCount.trans first.valueCount
  values := fun id => (first.values id).trans (second.values id)
  skips := by
    intro id skipped
    rw [second.skips id (first.gen ▸ skipped), first.skips id skipped]
  blocks := first.blocks.trans second.blocks
  edges := by
    intro source target member
    rcases second.edges source target member with before | marked
    · rcases first.edges source target before with before | marked
      · exact Or.inl before
      · exact Or.inr (second.blocks marked)
    · exact Or.inr marked
  quiet := by
    intro clear
    have same := second.quiet clear
    rw [same] at clear ⊢
    exact first.quiet clear

variable {Item : Type*}

variable {step : SCCPContext → Item → SCCPContext}

theorem Grows.foldl (grows : ∀ context item, Grows context (step context item))
    (items : List Item) (context : SCCPContext) : Grows context (items.foldl step context) := by
  induction items generalizing context with
  | nil => exact Grows.refl context
  | cons item items ih => exact (grows context item).trans (ih (step context item))

/-- A fold whose steps all do nothing. -/
theorem foldl_quiet (grows : ∀ context item, Grows context (step context item))
    (items : List Item) (clear : (items.foldl step context).changed = false) :
    ∀ item ∈ items, step context item = context := by
  induction items generalizing context with
  | nil => exact fun _ member => absurd member List.not_mem_nil
  | cons first items ih =>
    have rest := Grows.foldl grows items (step context first)
    have same := rest.quiet clear
    have firstClear : (step context first).changed = false := by
      rw [← same]
      exact clear
    have firstSame := (grows context first).quiet firstClear
    intro item member
    rcases List.mem_cons.mp member with rfl | member
    · exact firstSame
    · rw [List.foldl_cons, firstSame] at clear
      exact ih clear item member

/-- Setting one value to something above it. -/
theorem grows_update {value : SCCPValue} (tracked : leavesUndefined context.gen id = false)
    (below : (context.values id).Below value) :
    Grows context
      { context with values := Function.update context.values id value, changed := true } where
  gen := rfl
  valueCount := rfl
  values := by
    intro other
    by_cases same : other = id
    · subst same
      simpa only [Function.update_self] using below
    · simp only [Function.update_of_ne same]
      exact .refl _
  skips := by
    intro other skipped
    apply Function.update_of_ne
    intro same
    rw [same, tracked] at skipped
    cases skipped
  blocks := Finset.Subset.refl _
  edges := fun _ _ => Or.inl
  quiet := fun clear => by cases clear

theorem updateValue_grows (context : SCCPContext) {id : NodeId} (incoming : SCCPValue)
    (tracked : leavesUndefined context.gen id = false) :
    Grows context (context.updateValue id incoming) := by
  unfold updateValue
  split_ifs
  · split
    · exact Grows.refl context
    · exact Grows.refl context
    · rename_i isUndefined _
      exact grows_update tracked (isUndefined ▸ .undefined _)
    · exact grows_update tracked (.overdefined _)
    · split_ifs
      · exact Grows.refl context
      · exact grows_update tracked (.overdefined _)
  · exact Grows.refl context

theorem markEdgeExecutable_grows (context : SCCPContext) (source target : BlockId) :
    Grows context (context.markEdgeExecutable source target) := by
  unfold markEdgeExecutable
  split_ifs
  · exact Grows.refl context
  · refine
      { gen := rfl, valueCount := rfl, values := fun _ => .refl _, skips := fun _ _ => rfl
        blocks := Finset.subset_insert _ _, edges := ?_
        quiet := fun clear => by cases clear }
    intro first second member
    rcases Finset.mem_insert.mp member with same | before
    · cases same
      exact Or.inr (Finset.mem_insert_self _ _)
    · exact Or.inl before

variable {gen : Generator}

theorem tracked_of_isVariable (isVariable : (gen.nodes id).opcode.isVariable = true) :
    leavesUndefined gen id = false := by
  simp [leavesUndefined, isVariable]

theorem tracked_of_isExpression (isExpression : (gen.nodes id).opcode.isExpression = true) :
    leavesUndefined gen id = false := by
  simp [leavesUndefined, isExpression]

variable {opcode : IROpcode}

theorem isExpression_of_isIntegerLoad (isLoad : isIntegerLoad opcode = true) :
    opcode.isExpression = true := by
  cases opcode <;> first | rfl | cases isLoad

theorem isExpression_of_isSupported (supported : isSupportedIntegerExpression opcode = true) :
    opcode.isExpression = true := by
  cases opcode <;> first | rfl | cases supported

theorem isExpression_of_isIntConst (isConst : opcode.isIntConst = true) :
    opcode.isExpression = true := by
  cases opcode <;> first | rfl | cases isConst

theorem evaluateDefinition_grows (context : SCCPContext) (inst : IRNode) :
    Grows context (context.evaluateDefinition inst) := by
  unfold evaluateDefinition
  split
  · split
    · exact Grows.refl context
    · rename_i defined _ _
      dsimp only
      split
      · exact Grows.refl context
      · rename_i declined
        have isVersion : (context.gen.nodes defined).opcode = .ssavar := by
          simp only [Bool.or_eq_true, bne_iff_ne, not_or, not_not] at declined
          exact declined.2
        have tracked : leavesUndefined context.gen defined = false :=
          tracked_of_isVariable (by rw [isVersion]; rfl)
        split
        · split
          · exact updateValue_grows _ _ tracked
          · exact updateValue_grows _ _ tracked
        · exact updateValue_grows _ _ tracked
  · exact Grows.refl context

theorem markEdges_grows (context : SCCPContext) (source : BlockId) (targets : List BlockId) :
    Grows context (context.markEdges source targets) :=
  Grows.foldl (fun context target => markEdgeExecutable_grows context source target) targets context

theorem markSuccessors_grows (context : SCCPContext) (id : BlockId) :
    Grows context (context.markSuccessors id) := by
  unfold markSuccessors
  dsimp only
  split
  · exact Grows.refl context
  · split
    · split_ifs
      · exact markEdges_grows ..
      · split
        · exact Grows.refl context
        · exact markEdges_grows ..
        · exact markEdges_grows ..
    · exact markEdges_grows ..

variable [Compiler]

theorem evaluateResult_grows (context : SCCPContext) (id : NodeId) :
    Grows context (context.evaluateResult id) := by
  unfold evaluateResult
  dsimp only
  split_ifs with isCall isStore unused isInvalid silent isEffect isLoad supported isVariable
    isExpression
  · exact updateValue_grows _ _ (tracked_of_isExpression (by rw [eq_of_beq isCall]; rfl))
  · exact Grows.refl context
  · exact updateValue_grows _ _ (by simp [leavesUndefined, isStore])
  · exact updateValue_grows _ _ (by simp_all [leavesUndefined])
  · exact Grows.refl context
  · apply updateValue_grows
    rcases Bool.or_eq_true_iff.mp isEffect with hasDest | hasEffects
    · simp [leavesUndefined, Option.isNone_eq_false_iff.mpr hasDest]
    · simp [leavesUndefined, hasEffects]
  · have tracked : leavesUndefined context.gen id = false :=
      tracked_of_isExpression (isExpression_of_isIntegerLoad isLoad)
    split
    · exact updateValue_grows _ _ tracked
    · split_ifs
      · exact updateValue_grows _ _ tracked
      · exact updateValue_grows _ _ tracked
  · exact updateValue_grows _ _ (tracked_of_isExpression (isExpression_of_isSupported supported))
  · exact updateValue_grows _ _ (tracked_of_isVariable isVariable)
  · exact updateValue_grows _ _ (tracked_of_isExpression isExpression)
  · exact Grows.refl context

theorem evaluateInstruction_grows (context : SCCPContext) (id : NodeId) :
    Grows context (context.evaluateInstruction id) := by
  unfold evaluateInstruction
  dsimp only
  split_ifs with isConst isValid isPhi
  · exact updateValue_grows _ _ (tracked_of_isExpression (isExpression_of_isIntConst isConst))
  · exact updateValue_grows _ _ (tracked_of_isExpression (isExpression_of_isIntConst isConst))
  · exact updateValue_grows _ _ (tracked_of_isVariable (by rw [eq_of_beq isPhi]; rfl))
  · exact updateValue_grows _ _ (tracked_of_isVariable (by rw [eq_of_beq isPhi]; rfl))
  · exact (evaluateDefinition_grows context _).trans (evaluateResult_grows _ id)

theorem analyzeBlock_grows (context : SCCPContext) (id : BlockId) :
    Grows context (context.analyzeBlock id) := by
  unfold analyzeBlock
  split_ifs
  · exact (Grows.foldl evaluateInstruction_grows _ context).trans (markSuccessors_grows _ id)
  · exact Grows.refl context

/-! ## Closed contexts -/

/-- No executable block has anything left to evaluate or to mark. -/
structure Closed (context : SCCPContext) : Prop where
  unchanged : context.changed = false
  instruction : ∀ block ∈ context.executableBlocks, block < context.gen.basicBlocks.length →
    ∀ id ∈ (context.gen.block block).instructions, context.evaluateInstruction id = context
  successors : ∀ block ∈ context.executableBlocks,
    block < context.gen.basicBlocks.length → context.markSuccessors block = context

theorem closed_of_pass (clear : context.analyzePass.changed = false) :
    Closed context.analyzePass := by
  have grows := Grows.foldl analyzeBlock_grows
    (List.range context.gen.basicBlocks.length) { context with changed := false }
  have same : context.analyzePass = { context with changed := false } := grows.quiet clear
  have block : ∀ id < context.gen.basicBlocks.length,
      ({ context with changed := false } : SCCPContext).analyzeBlock id =
        { context with changed := false } := by
    intro id inRange
    exact foldl_quiet analyzeBlock_grows _ clear id (List.mem_range.mpr inRange)
  have parts : ∀ id ∈ context.executableBlocks, id < context.gen.basicBlocks.length →
      (∀ inst ∈ (context.gen.block id).instructions,
        ({ context with changed := false } : SCCPContext).evaluateInstruction inst =
          { context with changed := false }) ∧
      ({ context with changed := false } : SCCPContext).markSuccessors id =
        { context with changed := false } := by
    intro id member inRange
    have whole := block id inRange
    rw [analyzeBlock, if_pos member] at whole
    have afterClear := congrArg SCCPContext.changed whole
    have marking := (markSuccessors_grows _ id).quiet afterClear
    rw [marking] at whole
    have instructionsClear := congrArg SCCPContext.changed whole
    refine ⟨foldl_quiet evaluateInstruction_grows _ instructionsClear, ?_⟩
    rw [whole] at marking
    exact marking
  rw [same]
  exact ⟨rfl, fun id member inRange => (parts id member inRange).1,
    fun id member inRange => (parts id member inRange).2⟩

/-- What holds between the start of the analysis and each of its passes. -/
structure Progress (start context : SCCPContext) : Prop where
  gen : context.gen = start.gen
  valueCount : context.valueCount = start.valueCount
  values : ∀ id, (start.values id).Below (context.values id)
  skips : ∀ id, leavesUndefined start.gen id = true → context.values id = start.values id
  entry : start.gen.entryBlock ∈ context.executableBlocks
  edges : ∀ source target, (source, target) ∈ context.executableEdges →
    (source, target) ∈ start.executableEdges ∨ target ∈ context.executableBlocks
  closed : context.changed = false → Closed context

/-- `Analyze` ends in a closed context. -/
theorem progress_of_analyze {start final : SCCPContext} {fuel : Nat}
    (returns : start.analyze fuel = some final) : Progress start final ∧ final.changed = false := by
  refine runWhile_induct (Progress start) ?_ ?_ returns
  · intro context next progress _ steps
    obtain rfl := Option.some_inj.mp steps
    have grows : Grows { context with changed := false } context.analyzePass :=
      Grows.foldl analyzeBlock_grows _ _
    exact
      { gen := grows.gen.trans progress.gen
        valueCount := grows.valueCount.trans progress.valueCount
        values := fun id => (progress.values id).trans (grows.values id)
        skips := by
          intro id skipped
          exact (grows.skips id (progress.gen ▸ skipped)).trans (progress.skips id skipped)
        entry := grows.blocks progress.entry
        edges := by
          intro source target member
          rcases grows.edges source target member with before | marked
          · exact (progress.edges source target before).imp_right fun marked => grows.blocks marked
          · exact Or.inr marked
        closed := closed_of_pass }
  · exact
      { gen := rfl
        valueCount := rfl
        values := fun _ => .refl _
        skips := fun _ _ => rfl
        entry := Finset.mem_insert_self _ _
        edges := fun _ _ => Or.inl
        closed := fun clear => by cases clear }

end SCCPContext

end DaveCC.Optimization.Sccp
