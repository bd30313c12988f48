import DaveCC.Backend.HiddenVariables
import DaveCC.Backend.InstructionOrder
import DaveCC.Optimization.TailCalls

/-!
# Safety of tail calls

After a marked call a run only winds up: it does the bookkeeping of a return with the
value of the call in the return register. The callee can reach no variable whose address
is not marked as taken. A variable with the mark it may reach, and so a mark alone does
not allow the frame to go before the call.
-/

namespace DaveCC.Optimization

open DaveCC.Backend DaveCC.Memory DaveCC.Optimization.TailCallFunction

/-- What `CreateBasicBlocks` leaves behind. -/
structure BlockForm (fn : TailCallFunction) : Prop extends Placed fn.gen where
  /-- A block that returns ends with the return. -/
  returns : ∀ block, fn.returnBlock block = true → ∃ id ∈ (fn.gen.block block).endCode,
    (fn.gen.nodes id).opcode = .ret

variable {Object : Type} {fn : TailCallFunction} {place : Nat → Object} {call id : NodeId}
  {start before after config next : Config Object} {value : Option (Value Object)}

/-- A run gets to the call in one place, and the call leaves it in the next. -/
def Calls (fn : TailCallFunction) (place : Nat → Object) (start : Config Object) (call : NodeId)
    (before after : Config Object) : Prop :=
  fn.Reaches place start before ∧ before.rest.head? = some call ∧ fn.Step place before after

/-- In every run the call may give up the objects of the frame. -/
structure SafeTailCall (fn : TailCallFunction) (place : Nat → Object) (start : Config Object)
    (call : NodeId) (frame : Set Object) : Prop where
  /-- Nothing but the bookkeeping of the return runs after the call. -/
  quiet : ∀ before after config id, Calls fn place start call before after →
    fn.Reaches place after config → config.rest.head? = some id → Finishes fn.gen call id
  /-- At the return, the return register holds the value of the call. -/
  result : ∀ before after config id, Calls fn place start call before after →
    fn.Reaches place after config → config.rest.head? = some id →
      (fn.gen.nodes id).opcode = .ret → config.result = after.state.values call
  /-- The callee does not unwind the frame. -/
  callee : fn.callNeedsLiveFrame fn.gen call = false
  /-- The callee reaches no object of the frame. -/
  frame : ∀ before after, Calls fn place start call before after →
    Disjoint (fn.reached place before.state call) frame

/-- A run does nothing more than to return, with the value of the call in the return
register. -/
structure Winding (fn : TailCallFunction) (call : NodeId) (value : Option (Value Object))
    (config : Config Object) : Prop where
  rest : ∀ id ∈ config.rest, Finishes fn.gen call id
  ends : (∃ id ∈ config.rest, (fn.gen.nodes id).opcode = .ret) ∨
    ∀ target, fn.gen.Edge config.block target →
      (∀ id ∈ (fn.gen.block target).instructions, Finishes fn.gen call id) ∧
        ∃ id ∈ (fn.gen.block target).instructions, (fn.gen.nodes id).opcode = .ret
  holds : config.state.values call = value
  result : config.result = value

/-- Instructions that finish are neither calls nor `asm` statements. -/
theorem TailCallFunction.Finishes.opcode_ne (finishes : Finishes fn.gen call id) :
    (fn.gen.nodes id).opcode ≠ .calla ∧ (fn.gen.nodes id).opcode ≠ .asm := by
  rcases finishes with trivial | isLoc | ⟨isResult, _⟩
  · constructor
    · intro isCall
      rw [isCall] at trivial
      cases trivial
    · intro isAsm
      rw [isAsm] at trivial
      cases trivial
  · rw [isLoc]
    decide
  · constructor
    · intro isCall
      rw [isCall] at isResult
      cases isResult
    · intro isAsm
      rw [isAsm] at isResult
      cases isResult

theorem operand_of_call {state : MachineState Object}
    (isCall : (fn.gen.nodes call).opcode = .calla) :
    fn.operand place state call = state.values call := by
  have noVariable : (fn.gen.nodes call).variableSymbol = none := by
    unfold IRNode.variableSymbol
    rw [isCall]
  have noConst : (fn.gen.nodes call).opcode.isConst = false := by
    rw [isCall]
    rfl
  unfold MemoryFunction.operand
  rw [noVariable, noConst]
  rfl

/-- A run that winds up goes on winding up. -/
theorem Winding.step (winding : Winding fn call value config)
    (form : VariableForm fn.toMemoryFunction) (isCall : (fn.gen.nodes call).opcode = .calla) (step : fn.Step place config next) :
    Winding fn call value next := by
  cases step with
  | @instruction block id rest before after result final continues executes returns =>
    have finishes := winding.rest id (List.mem_cons_self ..)
    have apart := finishes.opcode_ne
    constructor
    · intro other inRest
      exact winding.rest other (List.mem_cons_of_mem _ inRest)
    · cases winding.ends with
      | inl inBlock =>
        rcases inBlock with ⟨other, isNext, isReturn⟩
        cases isNext with
        | head => exact absurd isReturn continues
        | tail _ inRest => exact Or.inl ⟨other, inRest, isReturn⟩
      | inr onwards => exact Or.inr onwards
    · cases executes with
      | standing => exact winding.holds
      | evaluates _ _ values =>
        have notDest : (fn.gen.nodes id).dest ≠ some call := by
          intro isDest
          have isTemporary := form.temporary id call isDest
          rw [isCall] at isTemporary
          cases isTemporary
        have notSelf : call ≠ id := by
          intro same
          exact apart.1 (same ▸ isCall)
        rw [values, MemoryFunction.assign_of_ne notSelf notDest]
        exact winding.holds
    · unfold MemoryFunction.Returns at returns
      rw [if_neg apart.1, if_neg apart.2] at returns
      split_ifs at returns with isResult
      · rcases finishes with trivial | isLoc | passes
        · cases opcode : (fn.gen.nodes id).opcode <;>
            simp_all [isTrivialReturnInstruction, IROpcode.isResult]
        · rw [isLoc] at isResult
          cases isResult
        · rcases returns with ⟨input, isInput, isFinal⟩
          rw [passes.2] at isInput
          cases isInput
          rw [operand_of_call isCall] at isFinal
          exact isFinal.trans winding.holds
      · exact returns.trans winding.result
  | @edge block target state result follows =>
    have onwards : (∀ id ∈ (fn.gen.block target).instructions, Finishes fn.gen call id) ∧
        ∃ id ∈ (fn.gen.block target).instructions, (fn.gen.nodes id).opcode = .ret := by
      cases winding.ends with
      | inl inBlock =>
        rcases inBlock with ⟨id, isNext, _⟩
        cases isNext
      | inr onwards => exact onwards target follows
    exact ⟨onwards.1, Or.inl onwards.2, winding.holds, winding.result⟩

theorem Winding.reaches (winding : Winding fn call value config)
    (form : VariableForm fn.toMemoryFunction) (isCall : (fn.gen.nodes call).opcode = .calla)
    (reaches : fn.Reaches place config next) : Winding fn call value next := by
  induction reaches with
  | refl => exact winding
  | tail _ step ih => exact ih.step form isCall step

/-! ## The call that is found -/

variable {block : BlockId}

/-- The instructions behind a call that `FindTailCalls` finds, and the edge from there. -/
theorem finishes_of_tailCallOf {rest : List NodeId} (blocks : BlockForm fn)
    (found : fn.tailCallOf fn.gen block = some call)
    (isEnd : call :: rest <:+ (fn.gen.block block).instructions) :
    (∀ id ∈ rest, Finishes fn.gen call id) ∧
      ((∃ id ∈ rest, (fn.gen.nodes id).opcode = .ret) ∨
        ∀ target, fn.gen.Edge block target →
          (∀ id ∈ (fn.gen.block target).instructions, Finishes fn.gen call id) ∧
            ∃ id ∈ (fn.gen.block target).instructions, (fn.gen.nodes id).opcode = .ret) := by
  unfold tailCallOf at found
  split_ifs at found with leads
  rcases exists_of_lastCall found with ⟨isCall, _, behind, front, split, finish⟩
  have whole : call :: behind.reverse <:+ (fn.gen.block block).instructions := by
    refine ⟨front.reverse, ?_⟩
    rw [← List.reverse_reverse (fn.gen.block block).instructions, split]
    simp
  have rest_eq := Generator.eq_of_suffix (blocks.nodup block) isEnd whole
  constructor
  · intro id inRest
    rw [rest_eq, List.mem_reverse] at inRest
    exact finish id inRest
  · unfold leadsToReturn at leads
    cases isReturn : fn.returnBlock block with
    | true =>
      left
      rcases blocks.returns block isReturn with ⟨last, isLast, returns⟩
      refine ⟨last, ?_, returns⟩
      have inEnd : last ∈ (call :: rest) := by
        rcases isEnd with ⟨passed, ends⟩
        unfold BasicBlock.endCode at isLast
        rw [← ends, List.getLast?_append_of_ne_nil _ (by simp)] at isLast
        exact List.mem_of_getLast? isLast
      cases inEnd with
      | head =>
        rw [isCall] at returns
        cases returns
      | tail _ inRest => exact inRest
    | false =>
      right
      rw [isReturn, Bool.false_or] at leads
      split at leads
      next only edges =>
          rw [Bool.and_eq_true, List.all_eq_true] at leads
          intro target follows
          unfold Generator.Edge at follows
          rw [edges, List.mem_singleton] at follows
          rw [follows]
          refine ⟨fun id inBlock => Or.inl (leads.2 id inBlock), ?_⟩
          rcases blocks.returns only leads.1 with ⟨last, isLast, returns⟩
          exact ⟨last, List.mem_of_getLast? isLast, returns⟩
      next => cases leads

/-- From a call that `FindTailCalls` finds on, a run winds up. -/
theorem winding_of_calls (blocks : BlockForm fn) (found : fn.tailCallOf fn.gen block = some call)
    (starts : fn.Starts place start) (calls : Calls fn place start call before after) :
    Winding fn call (after.state.values call) after := by
  rcases calls with ⟨reaches, isNext, step⟩
  have isEnd := MemoryFunction.Reaches.rest_suffix starts reaches
  have located := found
  unfold tailCallOf at located
  split_ifs at located
  rcases exists_of_lastCall located with ⟨isCall, _, behind, front, split, _⟩
  have inBlock : call ∈ (fn.gen.block block).instructions := by
    rw [← List.mem_reverse, split]
    simp
  cases step with
  | @instruction current id rest before after result final continues executes returns =>
    cases isNext
    have sameBlock := blocks.once block current call inBlock (isEnd.subset (List.mem_cons_self ..))
    rw [sameBlock] at found
    have finishes := finishes_of_tailCallOf blocks found isEnd
    refine ⟨finishes.1, finishes.2, rfl, ?_⟩
    unfold MemoryFunction.Returns at returns
    rw [isCall] at returns
    exact returns
  | edge => cases isNext

/-- A call that the optimization marks gives up the variables whose address is not marked
as taken. -/
theorem safeTailCall_hidden {fuel : Nat} {result : Generator} (blocks : BlockForm fn)
    (form : VariableForm fn.toMemoryFunction)
    (distinct : DistinctObjects fn.toMemoryFunction place) (starts : fn.Starts place start)
    (returns : fn.tailCallOptimization fuel = some result)
    (fresh : (fn.gen.nodes call).flags &&& kIRTailCall = 0)
    (isMarked : (result.nodes call).flags &&& kIRTailCall ≠ 0) :
    SafeTailCall fn place start call (hidden fn.toMemoryFunction place) := by
  rcases exists_tailCallOf returns fresh isMarked with ⟨block, found⟩
  have located := found
  unfold tailCallOf at located
  split_ifs at located
  rcases exists_of_lastCall located with ⟨isCall, needsNone, _⟩
  have winds : ∀ before after config, Calls fn place start call before after →
      fn.Reaches place after config → Winding fn call (after.state.values call) config :=
    fun before after config calls reaches =>
      (winding_of_calls blocks found starts calls).reaches form isCall reaches
  constructor
  · intro before after config id calls reaches isNext
    exact (winds before after config calls reaches).rest id (List.mem_of_head? isNext)
  · intro before after config id calls reaches _ _
    exact (winds before after config calls reaches).result
  · exact needsNone
  · intro before after calls
    have confined := confined_of_reaches form distinct starts calls.1
    have listed : fn.Lists call :=
      ⟨_, (MemoryFunction.Reaches.rest_suffix starts calls.1).subset (List.mem_of_head? calls.2.1)⟩
    apply confined.reached_disjoint form distinct listed
    · unfold MemoryFunction.isStanding
      rw [isCall]
      rfl
    · rw [isCall]
      rfl

/-- The variable of `int g(int *); int f(void) { int x; return g(&x); }`. -/
def leakedVariable : Symbol where
  id := 0
  type := { declarator := .primitive, type := kTypeInt, size := 4 }
  isLocal := true
  addressTaken := true

def leakCallee : Symbol where
  id := 1
  type := { declarator := .function, type := 0, size := 0 }
  storage := kStorageExtern
  addressTaken := true

/-- The variable, the callee, the call with its argument, and the return. -/
def leakNode : NodeId → IRNode
  | 0 => { opcode := .localvar, outputs := [3], symbol := some leakedVariable }
  | 1 => { opcode := .externvar, outputs := [2], symbol := some leakCallee }
  | 2 => { opcode := .calla, inputs := [1, 3], outputs := [4] }
  | 3 => { opcode := .pusharg, inputs := [0], outputs := [2] }
  | 4 => { opcode := .resulti, inputs := [2] }
  | 5 => { opcode := .leave }
  | 6 => { opcode := .ret }
  | _ => { opcode := .label }

def leakBlock : BasicBlock where
  instructions := [0, 1, 3, 2, 4, 5, 6]

def leakFunction : TailCallFunction where
  gen := { nodes := leakNode, basicBlocks := [leakBlock], entryBlock := 0 }
  pointerSize := 8
  asmOutputs := fun _ => []
  isNrvo := fun _ => false
  returnBlock := fun block => block == 0
  symbolName := fun symbol => if symbol = 1 then some "g" else some "x"

/-- Every variable is the object with its number. -/
def leakPlace (number : Nat) : Nat := number

def leakStart : Config Nat where
  block := 0
  rest := [0, 1, 3, 2, 4, 5, 6]
  state := { values := fun _ => none, memory := fun _ => ⟨0, none⟩, known := ∅ }
  result := none

theorem variable_leakNode {id : NodeId} {symbol : Symbol}
    (isVariable : (leakNode id).variableSymbol = some symbol) :
    symbol = leakedVariable ∧ id = 0 ∨ symbol = leakCallee ∧ id = 1 := by
  unfold leakNode at isVariable
  split at isVariable
  next => exact Or.inl ⟨(Option.some.inj isVariable).symm, rfl⟩
  next => exact Or.inr ⟨(Option.some.inj isVariable).symm, rfl⟩
  all_goals cases isVariable

theorem variableForm_leakFunction : VariableForm leakFunction.toMemoryFunction := by
  constructor
  · intro first second symbol other isFirst isSecond same
    rcases variable_leakNode isFirst with ⟨rfl, _⟩ | ⟨rfl, _⟩ <;>
      rcases variable_leakNode isSecond with ⟨rfl, _⟩ | ⟨rfl, _⟩ <;>
      first | rfl | cases same
  · intro id symbol isVariable kind
    rcases variable_leakNode isVariable with ⟨rfl, _⟩ | ⟨rfl, rfl⟩
    · rfl
    · simp [leakFunction, leakNode] at kind
  · intro id _ input _ symbol isVariable untaken
    rcases variable_leakNode isVariable with ⟨rfl, _⟩ | ⟨rfl, _⟩ <;> cases untaken
  · intro id symbol _ slot
    cases slot
  · intro id dest isDest
    have none : (leakNode id).dest = none := by
      unfold leakNode
      split <;> rfl
    rw [show leakFunction.gen.nodes id = leakNode id from rfl, none] at isDest
    cases isDest

theorem blockForm_leakFunction : BlockForm leakFunction := by
  refine ⟨⟨?_, ?_⟩, ?_⟩
  · intro block
    cases block with
    | zero => decide
    | succ => exact List.nodup_nil
  · intro first second id inFirst inSecond
    cases first with
    | zero =>
      cases second with
      | zero => rfl
      | succ => cases inSecond
    | succ => cases inFirst
  · intro block isReturn
    have isEntry : block = 0 := beq_iff_eq.mp isReturn
    rw [isEntry]
    exact ⟨6, rfl, rfl⟩

theorem distinctObjects_leakFunction :
    DistinctObjects leakFunction.toMemoryFunction leakPlace :=
  fun _ _ _ _ _ _ same => same

theorem starts_leakFunction : leakFunction.Starts leakPlace leakStart := by
  constructor
  · rfl
  · rfl
  · exact Set.empty_disjoint _
  · rw [Set.disjoint_left]
    rintro object ⟨_, carries⟩
    cases carries
  · intro _ _ isValue
    cases isValue

theorem safeTailCall_hidden_leakFunction :
    SafeTailCall leakFunction leakPlace leakStart 2
      (hidden leakFunction.toMemoryFunction leakPlace) :=
  safeTailCall_hidden blockForm_leakFunction variableForm_leakFunction
    distinctObjects_leakFunction starts_leakFunction
    (rfl : leakFunction.tailCallOptimization 1 = some _) (by decide) (by decide)

/-- The marked call reaches the variable through its argument. -/
theorem not_safeTailCall_frame : ¬ ∀ (fn : TailCallFunction) (place : Nat → Nat)
    (start : Config Nat) (fuel : Nat) (result : Generator) (call : NodeId), BlockForm fn →
      VariableForm fn.toMemoryFunction → DistinctObjects fn.toMemoryFunction place →
      fn.Starts place start → fn.tailCallOptimization fuel = some result →
      (fn.gen.nodes call).flags &&& kIRTailCall = 0 →
      (result.nodes call).flags &&& kIRTailCall ≠ 0 →
        SafeTailCall fn place start call (fn.frame place) := by
  intro safe
  have safe := safe leakFunction leakPlace leakStart 1 _ 2 blockForm_leakFunction
    variableForm_leakFunction distinctObjects_leakFunction starts_leakFunction rfl
    (by decide) (by decide)
  let passed : MachineState Nat :=
    { leakStart.state with values := leakFunction.assign 3 leakStart.state.values ⟨0, some 0⟩ }
  let called : MachineState Nat :=
    { passed with values := leakFunction.assign 2 passed.values ⟨0, none⟩ }
  have passes : leakFunction.Executes leakPlace 3 leakStart.state passed := by
    have produces : leakFunction.Produces leakPlace leakStart.state 3 ⟨0, some 0⟩ := by
      intro object carries
      cases carries
      exact Or.inl (Or.inr ⟨0, List.mem_singleton_self 0, ⟨0, some 0⟩, rfl, rfl⟩)
    exact .evaluates rfl produces rfl (ChangesOnly.refl _ _) (BringsOnly.refl _ _)
      (Set.empty_subset _)
  have calls : leakFunction.Executes leakPlace 2 passed called := by
    have produces : leakFunction.Produces leakPlace passed 2 ⟨0, none⟩ := by
      intro object carries
      cases carries
    exact .evaluates rfl produces rfl (ChangesOnly.refl _ _) (BringsOnly.refl _ _)
      (Set.empty_subset _)
  have reaches : leakFunction.Reaches leakPlace leakStart ⟨0, [2, 4, 5, 6], passed, none⟩ :=
    ((Relation.ReflTransGen.single (.instruction (by decide) (.standing rfl) rfl)).tail
      (.instruction (by decide) (.standing rfl) rfl)).tail (.instruction (by decide) passes rfl)
  have step : leakFunction.Step leakPlace ⟨0, [2, 4, 5, 6], passed, none⟩
      ⟨0, [4, 5, 6], called, called.values 2⟩ := .instruction (by decide) calls rfl
  have apart := safe.frame _ _ ⟨reaches, rfl, step⟩
  have reached : 0 ∈ leakFunction.reached leakPlace passed 2 :=
    Or.inl (Or.inr ⟨3, by decide, ⟨0, some 0⟩, rfl, rfl⟩)
  have inFrame : 0 ∈ leakFunction.frame leakPlace := ⟨0, leakedVariable, rfl, rfl, rfl, rfl⟩
  exact Set.disjoint_left.mp apart reached inFrame

end DaveCC.Optimization
