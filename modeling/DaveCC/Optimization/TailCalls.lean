import DaveCC.Backend.MemoryEffects

/-!
# Tail calls

`TailCallOptimization` marks the last call of a block that returns, or that leads to a
block which only returns. The scan goes backwards from the end of the block, over the
bookkeeping of a return, to the call. A mark only says that the call is last: the back
ends turn a marked call into a jump when the frame of the function is empty.
-/

namespace DaveCC.Optimization

open DaveCC.Backend

def kIRTailCall : Nat := 1 <<< 2

/-- A function with the blocks that end in a return, and the names of its symbols. -/
structure TailCallFunction extends MemoryFunction where
  returnBlock : BlockId → Bool
  symbolName : Nat → Option String

def isTrivialReturnInstruction : IROpcode → Bool
  | .label | .leave | .ret | .bra | .nop | .enter => true
  | _ => false

namespace TailCallFunction

variable (fn : TailCallFunction) (gen : Generator)

def callNeedsLiveFrame (call : NodeId) : Bool :=
  match (gen.nodes call).inputs with
  | [] => false
  | callee :: _ =>
    match (gen.nodes callee).variableSymbol with
    | none => false
    | some symbol => fn.symbolName symbol.id == some "_Unwind_Resume"

/-- The inner loop: from the instruction before a result back to the call. -/
def onlyTrivialSince (call : NodeId) : List NodeId → Bool
  | [] => false
  | between :: rest =>
    if between = call then true
    else if (gen.nodes between).opcode != .loc &&
        !isTrivialReturnInstruction (gen.nodes between).opcode then false
    else onlyTrivialSince call rest

/-- The outer loop, over the instructions of a block from the last one back. -/
def lastCall : List NodeId → Option NodeId
  | [] => none
  | id :: rest =>
    let inst := gen.nodes id
    if inst.opcode.isResult then
      match inst.inputs with
      | [] => none
      | value :: _ =>
        if (gen.nodes value).opcode != .calla || fn.callNeedsLiveFrame gen value then none
        else if onlyTrivialSince gen value rest then some value
        else none
    else if inst.opcode == .memcpy &&
        inst.inputs.head?.any (fun dest => (gen.nodes dest).opcode == .structreturn) then none
    else if inst.opcode = .calla then
      if fn.callNeedsLiveFrame gen id then none else some id
    else if !isTrivialReturnInstruction inst.opcode then none
    else lastCall rest

/-- The block returns, or its only edge leads to a block that does nothing but return. -/
def leadsToReturn (block : BlockId) : Bool :=
  fn.returnBlock block ||
    match (gen.block block).outEdges with
    | [next] =>
      fn.returnBlock next && (gen.block next).instructions.all fun id =>
        isTrivialReturnInstruction (gen.nodes id).opcode
    | _ => false

/-- The call that `FindTailCalls` marks. -/
def tailCallOf (block : BlockId) : Option NodeId :=
  if fn.leadsToReturn gen block then fn.lastCall gen (gen.block block).instructions.reverse
  else none

end TailCallFunction

/-- Set `kIRTailCall` on some calls. -/
def markTailCalls (gen : Generator) (marked : NodeId → Bool) : Generator :=
  { gen with
    nodes := fun id =>
      { gen.nodes id with
        flags := (gen.nodes id).flags ||| if marked id then kIRTailCall else 0 } }

namespace TailCallFunction

variable (fn : TailCallFunction)

def findTailCalls (gen : Generator) (block : BlockId) : Generator :=
  match fn.tailCallOf gen block with
  | none => gen
  | some call => markTailCalls gen (· == call)

/-- `BasicBlockTraverseDominatorTree` in post order. -/
def traverseDominatorTree (visit : Generator → BlockId → Generator) :
    Nat → Generator → BlockId → Option Generator
  | 0, _, _ => none
  | fuel + 1, gen, block =>
    ((gen.block block).dominatees.filter (· != block)).foldlM
      (fun gen child => traverseDominatorTree visit fuel gen child) gen |>.map
        fun gen => visit gen block

def tailCallOptimization (fuel : Nat) : Option Generator :=
  traverseDominatorTree fn.findTailCalls fuel fn.gen fn.gen.entryBlock

end TailCallFunction

/-! ## Marks -/

variable {fn : TailCallFunction} {gen : Generator} {first second marked : NodeId → Bool}

theorem markTailCalls_none : markTailCalls gen (fun _ => false) = gen := by
  simp [markTailCalls]

theorem markTailCalls_markTailCalls : markTailCalls (markTailCalls gen first) second =
    markTailCalls gen fun id => first id || second id := by
  have flags : ∀ left right : Bool,
      ((if left then kIRTailCall else 0) ||| if right then kIRTailCall else 0) =
        if left || right then kIRTailCall else 0 := by decide
  simp only [markTailCalls, Nat.or_assoc, flags]

/-- A node has the mark when it had it before or is one of those marked. -/
theorem marked_of_markTailCalls {id : NodeId} (fresh : (gen.nodes id).flags &&& kIRTailCall = 0)
    (isMarked : ((markTailCalls gen marked).nodes id).flags &&& kIRTailCall ≠ 0) :
    marked id = true := by
  cases chosen : marked id with
  | true => rfl
  | false =>
    simp only [markTailCalls, chosen, Bool.false_eq_true, if_false, Nat.or_zero] at isMarked
    exact absurd fresh isMarked

namespace TailCallFunction

/-- What the scans look for does not depend on the marks. -/
theorem onlyTrivialSince_markTailCalls (call : NodeId) (scanned : List NodeId) :
    onlyTrivialSince (markTailCalls gen marked) call scanned =
      onlyTrivialSince gen call scanned := by
  induction scanned with
  | nil => rfl
  | cons between rest ih =>
    unfold onlyTrivialSince
    rw [ih]
    rfl

theorem callNeedsLiveFrame_markTailCalls (call : NodeId) :
    fn.callNeedsLiveFrame (markTailCalls gen marked) call = fn.callNeedsLiveFrame gen call :=
  rfl

theorem lastCall_markTailCalls (scanned : List NodeId) :
    fn.lastCall (markTailCalls gen marked) scanned = fn.lastCall gen scanned := by
  induction scanned with
  | nil => rfl
  | cons id rest ih =>
    unfold lastCall
    simp only [ih, onlyTrivialSince_markTailCalls, callNeedsLiveFrame_markTailCalls]
    rfl

theorem tailCallOf_markTailCalls (block : BlockId) :
    fn.tailCallOf (markTailCalls gen marked) block = fn.tailCallOf gen block := by
  unfold tailCallOf
  rw [lastCall_markTailCalls]
  rfl

/-- The marks are those of `FindTailCalls` on some blocks. -/
def MarksFrom (fn : TailCallFunction) (gen result : Generator) : Prop :=
  ∃ marked, result = markTailCalls gen marked ∧
    ∀ call, marked call = true → ∃ block, fn.tailCallOf gen block = some call

theorem MarksFrom.refl : fn.MarksFrom gen gen := by
  refine ⟨fun _ => false, markTailCalls_none.symm, ?_⟩
  intro call isMarked
  cases isMarked

theorem MarksFrom.trans {next last : Generator} (marks : fn.MarksFrom gen next)
    (marksMore : fn.MarksFrom next last) : fn.MarksFrom gen last := by
  rcases marks with ⟨first, isNext, found⟩
  rcases marksMore with ⟨second, isLast, foundMore⟩
  refine ⟨fun call => first call || second call, ?_, ?_⟩
  · rw [isLast, isNext, markTailCalls_markTailCalls]
  · intro call isMarked
    cases Bool.or_eq_true_iff.mp isMarked with
    | inl isFirst => exact found call isFirst
    | inr isSecond =>
      rcases foundMore call isSecond with ⟨block, isFound⟩
      rw [isNext, tailCallOf_markTailCalls] at isFound
      exact ⟨block, isFound⟩

theorem marksFrom_findTailCalls (block : BlockId) :
    fn.MarksFrom gen (fn.findTailCalls gen block) := by
  unfold findTailCalls
  cases found : fn.tailCallOf gen block with
  | none => exact MarksFrom.refl
  | some call =>
    refine ⟨(· == call), rfl, ?_⟩
    intro other isCall
    rw [beq_iff_eq] at isCall
    exact ⟨block, by rw [isCall, found]⟩

variable {fuel : Nat} {result : Generator}

/-- A traversal marks only what `FindTailCalls` finds. -/
theorem marksFrom_traverse {block : BlockId}
    (returns : traverseDominatorTree fn.findTailCalls fuel gen block = some result) :
    fn.MarksFrom gen result := by
  induction fuel generalizing gen block result with
  | zero => cases returns
  | succ fuel ih =>
    rcases Option.map_eq_some_iff.mp returns with ⟨middle, traversed, visited⟩
    rw [← visited]
    apply MarksFrom.trans _ (marksFrom_findTailCalls block)
    clear returns
    generalize (gen.block block).dominatees.filter (· != block) = children at traversed
    induction children generalizing gen with
    | nil =>
      cases traversed
      exact MarksFrom.refl
    | cons child children rest =>
      rcases Option.bind_eq_some_iff.mp traversed with ⟨next, first, others⟩
      exact (ih first).trans (rest others)

variable {call : NodeId}

/-- A call that the optimization marks is one that `FindTailCalls` finds in a block. -/
theorem exists_tailCallOf (returns : fn.tailCallOptimization fuel = some result)
    (fresh : (fn.gen.nodes call).flags &&& kIRTailCall = 0)
    (isMarked : (result.nodes call).flags &&& kIRTailCall ≠ 0) :
    ∃ block, fn.tailCallOf fn.gen block = some call := by
  rcases marksFrom_traverse returns with ⟨marked, same, found⟩
  rw [same] at isMarked
  exact found call (marked_of_markTailCalls fresh isMarked)

/-- An instruction that does nothing after the call but pass on its value. -/
def Finishes (gen : Generator) (call id : NodeId) : Prop :=
  isTrivialReturnInstruction (gen.nodes id).opcode = true ∨ (gen.nodes id).opcode = .loc ∨
    ((gen.nodes id).opcode.isResult = true ∧ (gen.nodes id).inputs.head? = some call)

variable {scanned : List NodeId}

theorem exists_of_onlyTrivialSince (trivialSince : onlyTrivialSince gen call scanned = true) :
    ∃ after before, scanned = after ++ call :: before ∧ ∀ id ∈ after, Finishes gen call id := by
  induction scanned with
  | nil => cases trivialSince
  | cons between rest ih =>
    unfold onlyTrivialSince at trivialSince
    split_ifs at trivialSince with isCall works
    · exact ⟨[], rest, by rw [isCall]; rfl, by simp⟩
    · rcases ih trivialSince with ⟨after, before, same, finish⟩
      refine ⟨between :: after, before, by rw [same]; rfl, ?_⟩
      intro id isAfter
      cases isAfter with
      | head =>
        unfold Finishes
        cases trivial : isTrivialReturnInstruction (gen.nodes between).opcode <;> simp_all
      | tail _ isAfter => exact finish id isAfter

/-- The call that the scan finds, and what stands behind it. -/
theorem exists_of_lastCall (found : fn.lastCall gen scanned = some call) :
    (gen.nodes call).opcode = .calla ∧ fn.callNeedsLiveFrame gen call = false ∧
      ∃ after before, scanned = after ++ call :: before ∧ ∀ id ∈ after, Finishes gen call id := by
  induction scanned with
  | nil => cases found
  | cons id rest ih =>
    unfold lastCall at found
    dsimp only at found
    split at found
    next isResult =>
        split at found
        next => cases found
        next value others inputs =>
            split_ifs at found with unfit trivialSince
            cases found
            simp only [Bool.or_eq_true, bne_iff_ne, not_or, not_not, Bool.not_eq_true] at unfit
            rcases exists_of_onlyTrivialSince trivialSince with ⟨after, before, same, finish⟩
            refine ⟨unfit.1, unfit.2, id :: after, before, by rw [same]; rfl, ?_⟩
            intro other isAfter
            cases isAfter with
            | head => exact Or.inr (Or.inr ⟨isResult, by rw [inputs]; rfl⟩)
            | tail _ isAfter => exact finish other isAfter
    next =>
        split_ifs at found with isStruct isCall needsFrame works
        · cases found
          rw [Bool.not_eq_true] at needsFrame
          exact ⟨isCall, needsFrame, [], rest, rfl, by simp⟩
        · rcases ih found with ⟨opcode, needsNone, after, before, same, finish⟩
          refine ⟨opcode, needsNone, id :: after, before, by rw [same]; rfl, ?_⟩
          intro other isAfter
          cases isAfter with
          | head =>
            left
            simpa using works
          | tail _ isAfter => exact finish other isAfter

end TailCallFunction

end DaveCC.Optimization
