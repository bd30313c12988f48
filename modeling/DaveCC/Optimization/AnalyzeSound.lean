import DaveCC.Optimization.SccpSoundness

/-!
# The analysis over whole runs

`Analyze` is sound for every run whose steps it foresees: each block the run enters and
each edge it takes is executable, and each node it evaluates has its recorded constant as
value. Not every run is foreseen. When the fall-through of a conditional branch is the
block of its label, the two out edges lead to one block, and a branch that is not taken
marks neither.
-/

namespace DaveCC.Optimization.Sccp

open DaveCC.Arith DaveCC.Backend SCCPContext

variable [Compiler]

/-- What the analysis promises of a state of a run. -/
structure SCCPContext.Sound (context : SCCPContext) (config : Config) : Prop where
  block : config.block ∈ context.executableBlocks
  edge : ∀ source, config.arrivedFrom = some source →
    (source, config.block) ∈ context.executableEdges
  value : ∀ id word constant, config.env id = some word → context.valueOf id = .constant constant →
    operand context.gen config.env id =
      some (normalizeIntegerValue constant (context.gen.nodes id).type)

/-- A fixed point of the analysis, as `Analyze` leaves it. -/
structure Solution (function : SSAFunction) (context : SCCPContext) : Prop where
  gen : context.gen = function.gen
  closed : SCCPContext.Closed context
  entry : function.gen.entryBlock ∈ context.executableBlocks
  target : ∀ source target, (source, target) ∈ context.executableEdges →
    target ∈ context.executableBlocks
  constant : ∀ id ∈ instructionIds function.gen, (function.gen.nodes id).opcode.isIntConst = true →
    (SCCPValue.constant (function.gen.nodes id).ivalue).Below (context.valueOf id)
  plain : ∀ id ∈ instructionIds function.gen,
    isPlainVariable (function.gen.nodes id).opcode = true →
    context.valueOf id = .overdefined
  skipped : ∀ id, leavesUndefined function.gen id = true →
    context.valueOf id = .undefined ∨ context.valueOf id = .overdefined

variable {function : SSAFunction} {context : SCCPContext}

omit [Compiler] in
theorem initialValue_of_skipped {gen : Generator} {id : NodeId}
    (skipped : leavesUndefined gen id = true) : initialValue (gen.nodes id) = .undefined := by
  simp only [leavesUndefined, Bool.and_eq_true, Bool.not_eq_true'] at skipped
  obtain ⟨⟨⟨⟨⟨notExpression, notVariable⟩, _⟩, _⟩, _⟩, _⟩ := skipped
  unfold initialValue isPlainVariable
  rw [notVariable]
  split_ifs with isConst impossible
  · rw [isExpression_of_isIntConst isConst] at notExpression
    cases notExpression
  · cases impossible
  · rfl

theorem solution_of_analyze {fuel : Nat}
    (returns : (SCCPContext.start function.gen).analyze fuel = some context) :
    Solution function context := by
  have ⟨progress, clear⟩ := progress_of_analyze returns
  have gen : context.gen = function.gen := progress.gen
  have above (id : NodeId) (listed : id ∈ instructionIds function.gen) :
      (initialValue (function.gen.nodes id)).Below (context.valueOf id) := by
    have counted := lt_valueCount_start listed
    have below := progress.values id
    rw [values_start, if_pos listed] at below
    rw [SCCPContext.valueOf, progress.valueCount, if_pos counted]
    exact below
  exact
    { gen := gen
      closed := progress.closed clear
      entry := progress.entry
      target := by
        intro source target member
        rcases progress.edges source target member with initial | marked
        · exact absurd initial (Finset.notMem_empty _)
        · exact marked
      constant := by
        intro id listed isConst
        have below := above id listed
        rw [initialValue, if_pos isConst] at below
        exact below
      plain := by
        intro id listed isPlain
        have below := above id listed
        have notConst : (function.gen.nodes id).opcode.isIntConst = false := by
          have isVariable : (function.gen.nodes id).opcode.isVariable = true := by
            exact (Bool.and_eq_true_iff.mp (Bool.and_eq_true_iff.mp isPlain).1).1
          exact (excluded_of_isVariable isVariable).1
        rw [initialValue, notConst, if_neg Bool.false_ne_true, if_pos isPlain] at below
        cases value : context.valueOf id with
        | overdefined => rfl
        | undefined => rw [value] at below; cases below
        | constant word => rw [value] at below; cases below
      skipped := by
        intro id skipped
        have same := progress.skips id skipped
        rw [values_start, initialValue_of_skipped skipped, ite_self] at same
        unfold SCCPContext.valueOf
        split_ifs
        · exact Or.inl same
        · exact Or.inr rfl }

/-- A state of a run as the recorded values describe it. -/
structure Tracks (context : SCCPContext) (config : Config) : Prop where
  block : config.block ∈ context.executableBlocks
  inRange : config.block < context.gen.basicBlocks.length
  edge : ∀ source, config.arrivedFrom = some source →
    (source, config.block) ∈ context.executableEdges
  rest : ∀ id ∈ config.rest, id ∈ (context.gen.block config.block).instructions
  covers : CoversEnv context config.env

theorem Tracks.sound (solution : Solution function context) {config : Config}
    (tracks : Tracks context config) : context.Sound config where
  block := tracks.block
  edge := tracks.edge
  value := by
    intro id word constant evaluated recorded
    cases skipped : leavesUndefined context.gen id with
    | true =>
      rw [solution.gen] at skipped
      rcases solution.skipped id skipped with isUndefined | isOverdefined
      · rw [isUndefined] at recorded
        cases recorded
      · rw [isOverdefined] at recorded
        cases recorded
    | false =>
      have finds : operand context.gen config.env id =
          some ((nodeFormat context.gen id).canonicalize word) := by
        rw [operand, evaluated]
        rfl
      rw [normalize_eq_operand tracks.covers skipped finds recorded, finds]

omit [Compiler] in
theorem mem_instructionIds {gen : Generator} {block : BlockId} {id : NodeId}
    (inRange : block < gen.basicBlocks.length)
    (member : id ∈ (gen.block block).instructions) : id ∈ instructionIds gen := by
  rw [Generator.block_eq_getElem inRange] at member
  exact List.mem_flatMap.mpr ⟨_, List.getElem_mem inRange, member⟩

/-- The recorded values cover the words a run starts with. -/
theorem covers_initialEnv (solution : Solution function context) (contents : NodeId → BitVec 64) :
    CoversEnv context (initialEnv context.gen contents) := by
  intro id word evaluated _
  rw [solution.gen] at evaluated ⊢
  unfold initialEnv at evaluated
  split_ifs at evaluated with listed isConst isPlain
  · cases evaluated
    refine Covers.mono (covers_constant rfl ?_) (solution.constant id listed isConst)
    intro typed
    cases typed with
    | wide whole => exact (IntFormat.canonical_of_bits_eq whole _).read_eq_zero_iff.symm
    | constant _ canonical => exact canonical.read_eq_zero_iff.symm
    | load isLoad _ =>
      cases opcode : (function.gen.nodes id).opcode <;> rw [opcode] at isConst isLoad <;>
        contradiction
    | operation supported _ _ =>
      cases opcode : (function.gen.nodes id).opcode <;> rw [opcode] at isConst supported <;>
        contradiction
  · rw [solution.plain id listed isPlain]
    exact covers_overdefined

theorem tracks_start (solution : Solution function context) (contents : NodeId → BitVec 64) :
    Tracks context (Config.start context.gen contents) where
  block := by
    have entry := solution.entry
    rw [← solution.gen] at entry
    exact entry
  inRange := by
    have inRange := function.entry_lt
    rw [← solution.gen] at inRange
    exact inRange
  edge := fun _ impossible => by cases impossible
  rest := fun _ member => member
  covers := covers_initialEnv solution contents

variable {env : Env} {id : NodeId}

theorem covers_update {word : BitVec 64} (covers : CoversEnv context env)
    (covered : leavesUndefined context.gen id = false → Covers context.gen id (context.valueOf id)
      word) :
    CoversEnv context (Function.update env id (some word)) := by
  intro other found evaluated tracked
  by_cases same : other = id
  · subst same
    rw [Function.update_self, Option.some_inj] at evaluated
    subst evaluated
    exact covered tracked
  · rw [Function.update_of_ne same] at evaluated
    exact covers other found evaluated tracked

omit [Compiler] in
/-- Constants and phis do nothing where they stand. -/
theorem idle_of_value (gen : Generator) {inst : IRNode}
    (isValue : inst.opcode.isIntConst = true ∨ inst.opcode = .phi) :
    definedVersion gen inst = none ∧ hasResult inst = false := by
  have notStore : inst.opcode.isStore = false := by
    rcases isValue with isConst | isPhi
    · cases opcode : inst.opcode <;> rw [opcode] at isConst <;> first | rfl | cases isConst
    · rw [isPhi]
      rfl
  unfold definedVersion hasResult
  rw [notStore, Bool.and_false, if_neg Bool.false_ne_true, if_neg Bool.false_ne_true]
  rcases isValue with isConst | isPhi
  · rw [isConst]
    exact ⟨rfl, rfl⟩
  · rw [isPhi]
    exact ⟨rfl, rfl⟩

/-- Whether a store is safe does not depend on the values of the run. -/
theorem InstructionSafe.of_isStore {gen : Generator} {other : Env} {inst : IRNode}
    (safe : InstructionSafe gen env inst) (isStore : inst.opcode.isStore = true) :
    InstructionSafe gen other inst where
  store := safe.store
  load := safe.load
  operation := by
    intro isOperation
    have supported := (Bool.and_eq_true_iff.mp isOperation).1
    cases opcode : inst.opcode <;> rw [opcode] at isStore supported <;> contradiction

/-- An instruction keeps the words of a run covered. -/
theorem covers_instruction {middle next : Env} {block : BlockId}
    (solution : Solution function context) (executable : block ∈ context.executableBlocks)
    (inRange : block < context.gen.basicBlocks.length)
    (member : id ∈ (context.gen.block block).instructions) (covers : CoversEnv context env)
    (safe : InstructionSafe context.gen env (context.gen.nodes id))
    (defines : Defines context.gen env (context.gen.nodes id) middle)
    (results : Results context.gen middle id next) : CoversEnv context next := by
  have form : SSAForm context.gen := solution.gen ▸ function.form
  by_cases isValue : (context.gen.nodes id).opcode.isIntConst = true ∨
      (context.gen.nodes id).opcode = .phi
  · have ⟨definesNothing, noResult⟩ := idle_of_value context.gen isValue
    cases defines with
    | version impossible _ =>
      rw [definesNothing] at impossible
      cases impossible
    | nothing _ =>
      cases results with
      | nothing _ => exact covers
      | value impossible _ =>
        rw [noResult] at impossible
        cases impossible
  · have ⟨notConst, notPhi⟩ := not_or.mp isValue
    have ⟨definition, result⟩ := solution.closed.parts executable inRange member
      (Bool.not_eq_true _ ▸ notConst) notPhi
    have listed : Listed context id :=
      { plain := by
          intro input isInput isPlain
          have inputListed := form.listed id (mem_instructionIds inRange member) input isInput
            isPlain
          rw [solution.gen] at inputListed isPlain
          exact solution.plain input inputListed isPlain }
    have covered : CoversEnv context middle ∧
        InstructionSafe context.gen middle (context.gen.nodes id) := by
      cases defines with
      | nothing _ => exact ⟨covers, safe⟩
      | version isVersion stores =>
        refine ⟨?_, safe.of_isStore ?_⟩
        · exact covers_update covers fun _ =>
            covers_definition form covers definition isVersion stores safe
        · unfold definedVersion at isVersion
          split_ifs at isVersion with marked
          exact (Bool.and_eq_true_iff.mp marked).2
    cases results with
    | nothing _ => exact covered.1
    | value some produces =>
      exact covers_update covered.1 fun tracked =>
        covers_result covered.1 listed result some tracked produces covered.2

/-- An edge keeps the words of a run covered. -/
theorem covers_edge {entered : Env} {source target : BlockId} (solution : Solution function context)
    (executable : (source, target) ∈ context.executableEdges)
    (inRange : target < context.gen.basicBlocks.length) (covers : CoversEnv context env)
    (enters : Enters context.gen source target env entered) : CoversEnv context entered := by
  have form : SSAForm context.gen := solution.gen ▸ function.form
  obtain ⟨index, atIndex, takes⟩ := enters
  intro id word evaluated tracked
  have takes := takes id
  split_ifs at takes with isPhi
  · have fixed := solution.closed.instruction target (solution.target _ _ executable) inRange
      id isPhi.1
    by_cases operands : (context.gen.nodes id).inputs.length =
        (context.gen.block target).inEdges.length
    · rw [takes operands] at evaluated
      exact covers_phi form covers fixed isPhi.1 isPhi.2 operands atIndex executable evaluated
    · exact covers_short_phi form fixed isPhi.1 isPhi.2 operands
  · rw [takes] at evaluated
    exact covers id word evaluated tracked

/-- One step of a run keeps the invariant when the analysis foresees it. -/
theorem tracks_step (solution : Solution function context) {config next : Config}
    (tracks : Tracks context config) (safe : config.Safe context.gen)
    (step : Step context.gen config next) : Tracks context next := by
  cases step with
  | instruction defines results =>
    have member := tracks.rest _ List.mem_cons_self
    exact
      { block := tracks.block
        inRange := tracks.inRange
        edge := tracks.edge
        rest := fun other later => tracks.rest other (List.mem_cons_of_mem _ later)
        covers := covers_instruction solution tracks.block tracks.inRange member
          tracks.covers safe defines results }
  | edge leaves enters =>
    have executable := mem_executableEdges solution.closed.unchanged tracks.covers
      (solution.closed.successors _ tracks.block tracks.inRange) leaves safe
    have follows : function.gen.Edge _ _ := solution.gen ▸ leaves.1
    have inRange := function.toControlFlowGraph.target_lt follows
    rw [ControlFlowGraph.size, ← solution.gen] at inRange
    exact
      { block := solution.target _ _ executable
        inRange := inRange
        edge := fun source arrived => by cases arrived; exact executable
        rest := fun _ member => member
        covers := covers_edge solution executable inRange tracks.covers enters }

/-- The code of `if (condition) ;`, whose branch falls through to its own label. -/
def emptyIfCode (condition : BitVec 64) : Generator where
  nodes := fun id =>
    match id with
    | 0 => { opcode := .const32, ivalue := condition, outputs := [1] }
    | 1 => { opcode := .bfalse, inputs := [0, 2] }
    | 2 => { opcode := .label, block := 1, outputs := [1] }
    | 3 => { opcode := .ret, block := 1 }
    | _ => { opcode := .nop }
  basicBlocks :=
    [{ instructions := [0, 1], outEdges := [1, 1] },
     { instructions := [2, 3], inEdges := [0, 0], outEdges := [2] },
     { inEdges := [1] }]
  entryBlock := 0

omit [Compiler] in
theorem emptyIf_unmarked (condition : BitVec 64) (id : NodeId) :
    ((emptyIfCode condition).nodes id).isVarDef = false := by
  match id with
  | 0 | 1 | 2 | 3 | _ + 4 => simp [emptyIfCode, IRNode.isVarDef]

def emptyIf (condition : BitVec 64) : SSAFunction where
  gen := emptyIfCode condition
  entry_lt := Nat.succ_pos 2
  mem_inEdges_iff := by
    intro source target
    match source, target with
    | 0, 0 | 0, 1 | 0, 2 | 1, 0 | 1, 1 | 1, 2 | 2, 0 | 2, 1 | 2, 2 =>
      simp [emptyIfCode, Generator.block]
    | 0, _ + 3 | 1, _ + 3 | 2, _ + 3 | _ + 3, 0 | _ + 3, 1 | _ + 3, 2 | _ + 3, _ + 3 =>
      simp [emptyIfCode, Generator.block]
  form :=
    { owner := by
        intro block id member
        match block with
        | 0 | 1 =>
          simp only [emptyIfCode, Generator.block, List.getD_cons_zero,
            List.getD_cons_succ, List.mem_cons, List.not_mem_nil, or_false] at member
          rcases member with rfl | rfl <;> rfl
        | 2 | _ + 3 => cases member
      listed := by
        intro id _ input isInput isPlain
        match id with
        | 1 =>
          simp only [emptyIfCode, List.mem_cons, List.not_mem_nil, or_false] at isInput
          rcases isInput with rfl | rfl <;> cases isPlain
        | 0 | 2 | 3 | _ + 4 => cases isInput
      definition := by
        intro id _ _ marked
        rw [emptyIf_unmarked] at marked
        cases marked
      phiInput := by
        intro id isPhi
        match id with
        | 0 | 1 | 2 | 3 | _ + 4 => cases isPhi }

/-- The environment of a run of `emptyIf`, which only ever has the constant. -/
def emptyIfEnv (condition : BitVec 64) : Env :=
  initialEnv (emptyIfCode condition) fun _ => 0

theorem operand_emptyIf (condition : BitVec 64) :
    operand (emptyIf condition).gen (emptyIfEnv condition) 0 = some condition :=
  congrArg some (canonicalize_of_wide rfl condition)

/-- The steps up to the statement after the `if`: the constant, the branch, and the edge
that is both the taken one and the fall-through. -/
theorem emptyIf_steps (condition : BitVec 64) :
    let step := Step (emptyIf condition).gen
    let env := emptyIfEnv condition
    step ⟨0, [0, 1], env, none⟩ ⟨0, [1], env, none⟩ ∧ step ⟨0, [1], env, none⟩ ⟨0, [], env, none⟩ ∧
      step ⟨0, [], env, none⟩ ⟨1, [2, 3], env, some 0⟩ := by
  have definesNothing (id : NodeId) : definedVersion (emptyIf condition).gen
      ((emptyIf condition).gen.nodes id) = none := by
    rw [definedVersion, show ((emptyIf condition).gen.nodes id).isVarDef = false from
      emptyIf_unmarked condition id, Bool.false_and, if_neg Bool.false_ne_true]
  refine ⟨?_, ?_, ?_⟩
  · exact .instruction (.nothing (definesNothing 0)) (.nothing rfl)
  · exact .instruction (.nothing (definesNothing 1)) (.nothing rfl)
  · apply Step.edge
    · refine ⟨List.mem_cons_self, ?_⟩
      intro terminator ends target label rest _ inputs
      cases ends
      cases inputs
      refine ⟨condition, operand_emptyIf condition, ?_⟩
      split
      · rfl
      · exact List.mem_cons_self
    · refine ⟨0, rfl, ?_⟩
      intro id
      split
      · rename_i isPhi
        match id with
        | 0 | 1 | 2 | 3 | _ + 4 => cases isPhi.2
      · rfl

/-- The analysis foresees every step when the branch is taken. -/
theorem emptyIf_safe :
    let env := emptyIfEnv 0
    Config.Safe (emptyIf 0).gen ⟨0, [0, 1], env, none⟩ ∧
      Config.Safe (emptyIf 0).gen ⟨0, [1], env, none⟩ ∧
      Config.Safe (emptyIf 0).gen ⟨0, [], env, none⟩ := by
  have plain (id : NodeId) (among : id = 0 ∨ id = 1) :
      InstructionSafe (emptyIf 0).gen (emptyIfEnv 0) ((emptyIf 0).gen.nodes id) := by
    rcases among with rfl | rfl
    all_goals
      exact
        { store := fun impossible => by cases impossible
          load := fun impossible => by cases impossible
          operation := fun impossible => by cases impossible }
  refine ⟨plain 0 (Or.inl rfl), plain 1 (Or.inr rfl), ?_⟩
  exact
    { nonempty := List.cons_ne_nil _ _
      branch := by
        intro terminator ends condition label rest _ inputs
        cases ends
        cases inputs
        refine ⟨rfl, .wide rfl, ?_⟩
        intro word finds fallsThrough
        cases finds
        cases fallsThrough }

end DaveCC.Optimization.Sccp
