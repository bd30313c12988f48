import DaveCC.Backend.TargetRemoval

/-!
# Editing target instructions

The edits that passes make, as one type. A permitted edit gets arguments that its callers
pass; a safe one leaves no use behind and no end of a block on an instruction that is
gone. Runs of permitted and safe edits keep the users, the index of symbols, the list and
the ends of the blocks right.
-/

namespace DaveCC.Backend.TargetGenerator

open DaveCC.Container

/-- The operations that edit a generator, with their arguments. -/
inductive Edit where
  | newInstruction (number : Nat) (operand : Fin targetMaxOperands → Option TargetId)
  | emit (inst : TargetId)
  | emitBefore (inst : TargetId) (pos : Option TargetId)
  | emitAfter (inst : TargetId) (pos : Option TargetId)
  | emitConstant (inst : TargetId)
  | getSymbol (symbol : SymbolPointer)
  | applyFixup (inst : TargetId) (index : Fin targetMaxOperands) (label : TargetId)
  | setDest (inst : TargetId) (dest : Option TargetId)
  | addUser (inst user : TargetId)
  | removeUser (inst user : TargetId)
  | retarget (old new : TargetId)
  | retargetIf (old new : TargetId) (predicate : TargetId → Bool)
  | replaceOperand (inst : TargetId) (index : Fin targetMaxOperands) (new : Option TargetId)
  | delete (inst : TargetId)
  | replaceInstruction (old new : TargetId)
  | blockRemove (block : BlockId) (inst : TargetId)
  | blockReplace (block : BlockId) (old new : TargetId)
  | blockEmitBefore (block : BlockId) (inst pos : TargetId)
  | blockEmitAfter (block : BlockId) (inst pos : TargetId)

/-- The generator after an edit that returns. -/
def Edit.apply (fuel : Nat) (target : TargetGenerator) : Edit → Option TargetGenerator
  | .newInstruction number operand => some (target.targetNewInstruction (.other number) operand)
  | .emit inst => some (target.targetEmit inst)
  | .emitBefore inst pos => some (target.targetEmitBefore inst pos)
  | .emitAfter inst pos => some (target.targetEmitAfter inst pos)
  | .emitConstant inst => some (target.targetEmitConstant inst)
  | .getSymbol symbol => some (target.targetGetSymbol symbol)
  | .applyFixup inst index label => some (target.targetApplyFixup inst index label)
  | .setDest inst dest => some (target.setDest inst dest)
  | .addUser inst user => some (target.targetAddUser inst user)
  | .removeUser inst user => some (target.targetRemoveUser inst user)
  | .retarget old new => some (target.targetRetargetInstruction old new)
  | .retargetIf old new predicate => some (target.targetRetargetInstructionIf old new predicate)
  | .replaceOperand inst index new => target.targetReplaceOperand inst index new
  | .delete inst => some (target.targetDeleteInstruction inst)
  | .replaceInstruction old new => some (target.targetReplaceInstruction old new)
  | .blockRemove block inst => targetBasicBlockRemoveInstruction fuel target block inst
  | .blockReplace block old new => targetBasicBlockReplaceInstruction fuel target block old new
  | .blockEmitBefore block inst pos => some (target.targetBasicBlockEmitBefore block inst pos)
  | .blockEmitAfter block inst pos => some (target.targetBasicBlockEmitAfter block inst pos)

/-- The instruction is in the code list. -/
def Listed (target : TargetGenerator) (inst : TargetId) : Prop :=
  ∃ order, target.code.Represents order ∧ inst ∈ order

/-- A live instruction that is not in the list, or has a neighbour there. -/
def Unplaced (target : TargetGenerator) (inst : TargetId) : Prop :=
  target.Live inst ∧ (target.Listed inst → target.inList inst = true)

/-- The arguments of an edit are what its callers pass: live instructions, and listed ones
for places and for what is to leave the list. -/
def Edit.Permitted (target : TargetGenerator) : Edit → Prop
  | .newInstruction _ operand => ∀ index inst, operand index = some inst → target.Live inst
  | .emit inst | .emitConstant inst => target.Unplaced inst
  | .emitBefore inst pos | .emitAfter inst pos =>
    target.Unplaced inst ∧ ∀ listed, pos = some listed → target.Listed listed
  | .getSymbol _ | .setDest _ _ => True
  | .applyFixup inst index label =>
    target.Live inst ∧ target.Live label ∧ target.operand inst index = none
  | .addUser inst user | .removeUser inst user => target.Live inst ∧ target.Live user
  | .retarget old new | .retargetIf old new _ => target.Live old ∧ target.Live new
  | .replaceOperand inst _ new => target.Live inst ∧ ∀ value, new = some value → target.Live value
  | .delete inst | .blockRemove _ inst => target.Listed inst
  | .replaceInstruction old new | .blockReplace _ old new => target.Listed old ∧ target.Live new
  | .blockEmitBefore block inst pos | .blockEmitAfter block inst pos =>
    target.Live inst ∧ ¬target.Listed inst ∧ target.Listed pos ∧ target.blockOf pos = some block

/-- The last constant has not been deleted. -/
def ConstantListed (target : TargetGenerator) : Prop :=
  ∀ constant, target.lastConstant = some constant → target.Listed constant

/-- An edit leaves no use and no end of a block behind. -/
def Edit.Safe (target : TargetGenerator) : Edit → Prop
  | .emitConstant _ => target.ConstantListed
  | .getSymbol _ => target.lastSymbol = none → target.ConstantListed
  | .addUser inst user => target.HasOperand user inst
  | .removeUser inst user => ¬target.HasOperand user inst
  | .retarget old new => old ≠ new ∨ target.users old = []
  | .retargetIf old new predicate => target.MovesAllOrNone old new predicate
  | .replaceOperand inst index new =>
    ∀ old, target.operand inst index = some old → new ≠ some old →
      ¬target.HoldsElsewhere inst index old
  | .delete inst => (∀ user ∈ target.users inst, user = inst) ∧ target.NoEnd inst
  | .replaceInstruction old new => (old ≠ new ∨ target.users old = []) ∧ target.NoEnd old
  | .blockRemove block inst =>
    target.EndsOnly inst block ∧
      ∃ later, RemovedInTurn target.users inst later ∧
        ∀ order, target.code.Represents order → EndsKept target.spans order (inst :: later)
  | .blockReplace _ _ _ => False
  | _ => True

/-- One permitted and safe edit that returns. -/
def Edits (before after : TargetGenerator) : Prop :=
  ∃ (fuel : Nat) (edit : Edit),
    edit.Permitted before ∧ edit.Safe before ∧ edit.apply fuel before = some after

variable {target final start finish : TargetGenerator} {order : List TargetId} {inst : TargetId}

/-! ## Runs -/

theorem Arranged.mem_of_listed (arranged : target.Arranged order) (listed : target.Listed inst) :
    inst ∈ order := by
  obtain ⟨other, represents, member⟩ := listed
  rw [arranged.list.unique represents]
  exact member

theorem Arranged.emittable (arranged : target.Arranged order) (unplaced : target.Unplaced inst) :
    target.Emittable order inst :=
  ⟨unplaced.1, fun listed => unplaced.2 ⟨order, arranged.list, listed⟩⟩

theorem Arranged.not_mem (arranged : target.Arranged order) (unlisted : ¬target.Listed inst) :
    inst ∉ order :=
  fun listed => unlisted ⟨order, arranged.list, listed⟩

theorem Arranged.place (arranged : target.Arranged order) {pos : Option TargetId}
    (listed : ∀ inst, pos = some inst → target.Listed inst) : Place order pos :=
  fun inst placed => arranged.mem_of_listed (listed inst placed)

/-- One permitted and safe edit keeps the invariant. -/
theorem consistent_edits (consistent : target.Consistent) (edits : target.Edits final) :
    final.Consistent := by
  obtain ⟨order, arranged⟩ := consistent.arranged
  obtain ⟨fuel, edit, permitted, safe, returns⟩ := edits
  have defUse := consistent.defUse
  cases edit with
  | newInstruction number operand =>
    cases returns
    exact consistent.targetNewInstruction permitted
  | emit inst =>
    cases returns
    exact consistent.targetEmit arranged (arranged.emittable permitted)
  | emitBefore inst pos =>
    cases returns
    exact consistent.targetEmitBefore arranged (arranged.emittable permitted.1)
      (arranged.place permitted.2)
  | emitAfter inst pos =>
    cases returns
    exact consistent.targetEmitAfter arranged (arranged.emittable permitted.1)
      (arranged.place permitted.2)
  | emitConstant inst =>
    cases returns
    exact consistent.targetEmitConstant arranged (arranged.emittable permitted)
      (arranged.place safe)
  | getSymbol symbol =>
    cases returns
    exact consistent.targetGetSymbol arranged fun first => arranged.place (safe first)
  | applyFixup inst index label =>
    cases returns
    obtain ⟨live, labelLive, empty⟩ := permitted
    refine consistent.of_sameShape (sameShape_setOperand.trans sameShape_targetAddUser)
      (defUse.targetApplyFixup live labelLive ?_)
    intro old held
    rw [empty] at held
    cases held
  | setDest inst dest =>
    cases returns
    exact consistent.setDest
  | addUser inst user =>
    cases returns
    exact consistent.of_sameShape sameShape_targetAddUser (defUse.targetAddUser permitted.2 safe)
  | removeUser inst user =>
    cases returns
    exact consistent.of_sameShape sameShape_targetRemoveUser
      (defUse.targetRemoveUser fun used => safe used.2)
  | retarget old new =>
    cases returns
    exact consistent.targetRetargetInstruction permitted.2 safe
  | retargetIf old new predicate =>
    cases returns
    obtain ⟨same, retargeted⟩ := defUse.targetRetargetInstructionIf permitted.2 safe
    exact consistent.of_sameShape same retargeted
  | replaceOperand inst index new =>
    exact consistent.of_sameShape (sameShape_targetReplaceOperand returns)
      (defUse.targetReplaceOperand permitted.1 permitted.2 safe returns)
  | delete inst =>
    cases returns
    exact consistent.targetDeleteInstruction arranged (arranged.mem_of_listed permitted)
      safe.2 safe.1
  | replaceInstruction old new =>
    cases returns
    exact consistent.targetReplaceInstruction arranged (arranged.mem_of_listed permitted.1)
      safe.2 permitted.2 safe.1
  | blockRemove block inst =>
    obtain ⟨ends, later, turns, kept⟩ := safe
    exact consistent.targetBasicBlockRemoveInstruction arranged
      (arranged.mem_of_listed permitted) ends turns (kept order arranged.list) returns
  | blockReplace block old new => exact safe.elim
  | blockEmitBefore block inst pos =>
    cases returns
    obtain ⟨live, unlisted, listed, owned⟩ := permitted
    exact consistent.targetBasicBlockEmitBefore arranged live (arranged.not_mem unlisted)
      (arranged.mem_of_listed listed) owned
  | blockEmitAfter block inst pos =>
    cases returns
    obtain ⟨live, unlisted, listed, owned⟩ := permitted
    exact consistent.targetBasicBlockEmitAfter arranged live (arranged.not_mem unlisted)
      (arranged.mem_of_listed listed) owned

theorem consistent_targetGeneratorInit : targetGeneratorInit.Consistent := by
  have dead (id : TargetId) : ¬targetGeneratorInit.Live id := by
    rintro ⟨positive, less, -⟩
    exact Nat.not_lt_of_le positive less
  have empty : targetGeneratorInit.symbolIndex.Valid hashTargetSymbol := .inl ⟨rfl, rfl⟩
  constructor
  · exact ⟨Nat.one_pos, fun id listed => absurd listed List.not_mem_nil⟩
  · refine ⟨⟨?_, fun _ => TargetUses.agree_empty⟩, fun _ _ => rfl⟩
    intro inst user
    constructor
    · intro listed
      cases listed
    · rintro ⟨live, -⟩
      exact absurd live (dead user)
  · refine ⟨empty, ?_⟩
    intro symbol id
    constructor
    · intro found
      cases found
    · rintro ⟨live, -⟩
      exact absurd live (dead id)
  · refine ⟨[], ⟨?_, ?_, ?_, ?_, ?_⟩⟩
    · refine ⟨List.nodup_nil, rfl, rfl, rfl, ?_, ?_⟩
      · intro before element after split
        simp at split
      · intro before element after split
        simp at split
    · intro id listed
      cases listed
    · intro id _ live
      exact absurd live (dead id)
    · have none : CodeSpan.Within targetGeneratorInit.symbolSpan ([] ++ [] ++ []) :=
        .of_run rfl rfl
      exact none
    · refine ⟨fun _ => none, ?_, ?_⟩
      · intro block
        exact ⟨[], [], [], rfl, by simp, rfl, rfl⟩
      · intro id listed
        cases listed

/-- Two constants, and an instruction that uses the first one twice. -/
def doubleUse : TargetGenerator :=
  let target := targetGeneratorInit.targetNewInstruction (.other 0) fun _ => none
  let target := target.targetNewInstruction (.other 0) fun _ => none
  target.targetNewInstruction (.other 1) fun index => if index.val < 2 then some 1 else none

theorem run_doubleUse : Relation.ReflTransGen Edits targetGeneratorInit doubleUse := by
  refine .tail (.tail (.tail .refl ⟨0, .newInstruction 0 fun _ => none, ?_, trivial, rfl⟩)
    ⟨0, .newInstruction 0 fun _ => none, ?_, trivial, rfl⟩)
    ⟨0, .newInstruction 1 fun index => if index.val < 2 then some 1 else none, ?_, trivial, rfl⟩
  · intro index inst operand
    cases operand
  · intro index inst operand
    cases operand
  · intro index inst operand
    dsimp only at operand
    split_ifs at operand
    cases operand
    exact ⟨by decide, by decide, by decide⟩

end DaveCC.Backend.TargetGenerator
