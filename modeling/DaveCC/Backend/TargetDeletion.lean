import DaveCC.Backend.TargetEmission

/-!
# Deleting target instructions

An instruction that is deleted leaves the list, the index of symbols, the run of symbols
and the users of its operands. It keeps its own users' operands, so it may have no user
but itself. The ends of its block are moved by whoever deletes it, before it is deleted.
-/

namespace DaveCC.Backend.TargetGenerator

open DaveCC.Container TargetUses

variable {target other : TargetGenerator} {order rest front back : List TargetId}
  {inst old new id : TargetId} {block : BlockId} {uses : TargetId → TargetId → Prop}

/-- The parts of the generator after an instruction has been deleted, save the users. -/
structure Deleted (target other : TargetGenerator) (inst : TargetId) : Prop where
  code : other.code = target.code.deleteElement inst
  deleted : other.deletedInstructions = target.deletedInstructions ++ [inst]
  nextId : other.nextInstructionId = target.nextInstructionId
  lastConstant : other.lastConstant = target.lastConstant
  symbolIndex : other.symbolIndex = (target.targetSymbolIndexRemove inst).symbolIndex
  symbolSpan : other.symbolSpan = target.leaveSpan target.symbolSpan inst
  spans : other.spans = target.spans
  opcode : ∀ id, (other.instructions id).opcode = (target.instructions id).opcode
  symbol : ∀ id, (other.instructions id).symbol = (target.instructions id).symbol
  block : ∀ id, other.blockOf id = target.blockOf id
  operands : ∀ id index, other.operand id index = target.operand id index

theorem Deleted.live_iff (deleted : Deleted target other inst) :
    other.Live id ↔ target.Live id ∧ id ≠ inst := by
  rw [Live, Live, deleted.nextId, deleted.deleted, List.mem_append, List.mem_singleton, not_or]
  simp only [and_assoc, ne_eq]

/-- The first and the last symbol are the ends of a run that the instruction leaves. -/
theorem leaveSymbols_eq :
    target.leaveSymbols inst =
      { target with
        firstSymbol := (target.leaveSpan target.symbolSpan inst).code
        lastSymbol := (target.leaveSpan target.symbolSpan inst).endCode } := by
  obtain ⟨_, _, _, _, _, firstSymbol, lastSymbol, _, _⟩ := target
  by_cases first : firstSymbol = some inst
  · by_cases last : lastSymbol = some inst
    · simp [leaveSymbols, leaveSpan, symbolSpan, first, last]
    · simp [leaveSymbols, leaveSpan, symbolSpan, first, last]
  · by_cases last : lastSymbol = some inst
    · simp [leaveSymbols, leaveSpan, symbolSpan, first, last]
    · simp [leaveSymbols, leaveSpan, symbolSpan, first, last]

theorem targetSymbolIndexRemove_eq :
    target.targetSymbolIndexRemove inst =
      { target with symbolIndex := (target.targetSymbolIndexRemove inst).symbolIndex } := by
  rw [targetSymbolIndexRemove]
  split
  all_goals rfl

/-- A deletion that starts by leaving the index and the symbols. -/
theorem targetDeleteInstruction_eq (target : TargetGenerator) (inst : TargetId) :
    ∃ left : TargetGenerator,
      left = { target with
        symbolIndex := (target.targetSymbolIndexRemove inst).symbolIndex
        firstSymbol := (target.leaveSpan target.symbolSpan inst).code
        lastSymbol := (target.leaveSpan target.symbolSpan inst).endCode } ∧
      target.targetDeleteInstruction inst =
        { (left.dropOperandUsers inst).modifyUses inst destructUsers with
          code := (left.dropOperandUsers inst).code.deleteElement inst
          deletedInstructions := (left.dropOperandUsers inst).deletedInstructions ++ [inst] } := by
  refine ⟨_, rfl, ?_⟩
  rw [TargetGenerator.targetDeleteInstruction]
  simp only [leaveSymbols_eq]
  rw [targetSymbolIndexRemove_eq]
  rfl

/-- The instruction is no longer a user, and its own users are forgotten. -/
theorem Records.targetDeleteInstruction (records : target.Records uses)
    (unused : ∀ user, uses user inst → user = inst ∧ target.HasOperand inst inst) :
    Deleted target (target.targetDeleteInstruction inst) inst ∧
      (target.targetDeleteInstruction inst).Records fun user operand =>
        if operand = inst then False
        else uses user operand ∧ ¬(user = inst ∧ target.HasOperand inst operand) := by
  obtain ⟨left, leftEq, deletes⟩ := targetDeleteInstruction_eq target inst
  have leftRecords : left.Records uses := by
    rw [leftEq]
    exact records.of_sameUses fun _ => rfl
  have dropped : left.Rerecords (left.dropOperandUsers inst) _ := leftRecords.dropOperandUsers
  have operands : ∀ operand, left.HasOperand inst operand ↔ target.HasOperand inst operand := by
    intro operand
    rw [leftEq]
    rfl
  generalize left.dropOperandUsers inst = drop at dropped deletes
  have forgotten : drop.users inst = [] := by
    apply List.eq_nil_iff_forall_not_mem.mpr
    intro user listed
    obtain ⟨used, other⟩ := (dropped.records.mem_users inst user).mp listed
    obtain ⟨rfl, own⟩ := unused user used
    exact other ⟨rfl, (operands _).mpr own⟩
  have agree : (drop.instructions inst).toTargetUses.destructUsers.Agree := by
    have before := dropped.records.agree inst
    refine ⟨List.nodup_nil, ?_, ?_⟩
    · have count := before.count
      rw [show (drop.instructions inst).users = [] from forgotten] at count
      exact count
    · intro userIndex absent
      cases absent
  have forgets := dropped.records.modifyUses (fun _ => False) agree (by simp [destructUsers])
  have same := dropped.same.trans
    (sameShape_modifyUses : drop.SameShape (drop.modifyUses inst destructUsers))
  have sameOperands (id : TargetId) (index : Fin targetMaxOperands) :
      (drop.modifyUses inst destructUsers).operand id index = left.operand id index :=
    operand_modifyUses.trans (dropped.operands id index)
  rw [deletes]
  generalize drop.modifyUses inst destructUsers = final at forgets same sameOperands
  rw [dropped.same.code, dropped.same.deleted]
  subst leftEq
  constructor
  · exact ⟨rfl, rfl, same.nextId, same.lastConstant, same.symbolIndex,
      congrArg₂ CodeSpan.mk same.firstSymbol same.lastSymbol, same.spans, same.opcode,
      same.symbol, same.block, sameOperands⟩
  · have recorded : final.Records _ := forgets
    have result : ({ final with
        code := target.code.deleteElement inst
        deletedInstructions := target.deletedInstructions ++ [inst] } :
          TargetGenerator).Records _ := recorded.of_sameUses fun _ => rfl
    apply result.congr
    intro user operand
    split_ifs
    · exact Iff.rfl
    · rw [operands]

/-- An instruction that nothing but itself uses is deleted. -/
theorem DefUse.targetDeleteInstruction (defUse : target.DefUse)
    (unused : ∀ user ∈ target.users inst, user = inst) :
    Deleted target (target.targetDeleteInstruction inst) inst ∧
      (target.targetDeleteInstruction inst).DefUse := by
  have ownUse : ∀ user, target.Live user ∧ target.HasOperand user inst →
      user = inst ∧ target.HasOperand inst inst := by
    intro user used
    have own := unused user (defUse.mem_users.mpr used)
    exact ⟨own, own ▸ used.2⟩
  obtain ⟨deleted, records⟩ := defUse.records.targetDeleteInstruction ownUse
  refine ⟨deleted, records.congr ?_, ?_⟩
  · intro user operand
    rw [deleted.live_iff, hasOperand_congr deleted.operands]
    split_ifs with here
    · subst here
      rw [false_iff]
      rintro ⟨⟨live, apart⟩, has⟩
      exact apart (unused user (defUse.mem_users.mpr ⟨live, has⟩))
    · constructor
      · rintro ⟨⟨live, has⟩, other⟩
        refine ⟨⟨live, ?_⟩, has⟩
        rintro rfl
        exact other ⟨rfl, has⟩
      · rintro ⟨⟨live, apart⟩, has⟩
        exact ⟨⟨live, has⟩, fun own => apart own.1⟩
  · intro operand dead
    rw [deleted.live_iff] at dead
    apply List.eq_nil_iff_forall_not_mem.mpr
    intro user listed
    have used := (records.mem_users operand user).mp listed
    split_ifs at used with here
    exact dead ⟨defUse.live_operand used.1.1 used.1.2, here⟩

/-- An instruction that defines no symbol is not in the index. -/
theorem Indexed.of_undefined (indexed : target.Indexed) (undefined : ∀ symbol,
      ¬((target.instructions inst).opcode = .symbol ∧ (target.instructions inst).symbol = some
      symbol)) (deleted : Deleted target other inst) : other.Indexed := by
  have kept : other.symbolIndex = target.symbolIndex := by
    rw [deleted.symbolIndex, targetSymbolIndexRemove]
    split
    · next symbol opcode named => exact absurd ⟨opcode, named⟩ (undefined symbol)
    · rfl
  refine ⟨kept ▸ indexed.valid, ?_⟩
  intro symbol id
  rw [kept, indexed.find_iff, deleted.live_iff, deleted.opcode, deleted.symbol]
  constructor
  · rintro ⟨live, defines⟩
    refine ⟨⟨live, ?_⟩, defines⟩
    rintro rfl
    exact undefined symbol defines
  · rintro ⟨⟨live, -⟩, defines⟩
    exact ⟨live, defines⟩

/-- The index no longer finds the instruction. -/
theorem Indexed.deleted (indexed : target.Indexed) (live : target.Live inst)
    (deleted : Deleted target other inst) : other.Indexed := by
  by_cases defined : ∃ own, (target.instructions inst).opcode = .symbol ∧
      (target.instructions inst).symbol = some own
  · obtain ⟨own, opcode, symbolEq⟩ := defined
    have erasedEq : other.symbolIndex = target.symbolIndex.erase hashTargetSymbol own inst := by
      rw [deleted.symbolIndex, targetSymbolIndexRemove, opcode, symbolEq]
    have found : target.symbolIndex.find hashTargetSymbol own = some inst :=
      (indexed.find_iff own inst).mpr ⟨live, opcode, symbolEq⟩
    obtain ⟨valid, holds⟩ := indexed.valid.erase (indexed.valid.find_eq_some_iff.mp found)
    refine ⟨erasedEq ▸ valid, ?_⟩
    intro symbol id
    rw [erasedEq, valid.find_eq_some_iff, holds, ← indexed.valid.find_eq_some_iff,
      deleted.live_iff, deleted.opcode, deleted.symbol]
    constructor
    · rintro ⟨apart, finds⟩
      obtain ⟨idLive, defines, named⟩ := (indexed.find_iff symbol id).mp finds
      refine ⟨⟨idLive, ?_⟩, defines, named⟩
      rintro rfl
      rw [symbolEq, Option.some.injEq] at named
      exact apart named.symm
    · rintro ⟨⟨idLive, apart⟩, defines, named⟩
      have finds := (indexed.find_iff symbol id).mpr ⟨idLive, defines, named⟩
      refine ⟨?_, finds⟩
      rintro rfl
      rw [found, Option.some.injEq] at finds
      exact apart finds.symm
  · exact indexed.of_undefined (fun symbol both => defined ⟨symbol, both⟩) deleted

/-! ## The ends of runs -/

/-- An instruction leaves a sequence, and the ends of its block are moved. -/
theorem delimits_leaveSpan {span : CodeSpan} {owner : NodeId → Option BlockId}
    (delimits : span.Delimits (front ++ inst :: back) owner block)
    (nodup : (front ++ inst :: back).Nodup)
    (prevEq : span.endCode = some inst → span.code ≠ some inst →
      target.code.prev inst = front.getLast?)
    (nextEq : span.code = some inst → span.endCode ≠ some inst →
      target.code.next inst = back.head?) :
    (target.leaveSpan span inst).Delimits (front ++ back) owner block := by
  let graph : IRGraph := { nodes := fun _ => none, code := target.code, spans := target.spans }
  have left : (graph.leaveSpan span inst).Delimits (front ++ back) owner block :=
    IRGraph.delimits_leaveSpan_of_neighbours delimits nodup prevEq nextEq
  exact left

/-- The list, where the ends of the blocks are those of the instructions of `rest`. -/
structure ArrangedApart (target : TargetGenerator) (order rest : List TargetId) : Prop where
  list : target.code.Represents order
  live : ∀ id ∈ order, target.Live id
  detached : ∀ id, id ∉ order → target.Live id → target.code.Detached id ∧ target.blockOf id = none
  symbols : target.symbolSpan.Within order
  blocks : target.Blocked rest

theorem Arranged.apart (arranged : target.Arranged order) : target.ArrangedApart order order :=
  ⟨arranged.list, arranged.live, arranged.detached, arranged.symbols, arranged.blocks⟩

theorem ArrangedApart.arranged (arranged : target.ArrangedApart order order) :
    target.Arranged order :=
  ⟨arranged.list, arranged.live, arranged.detached, arranged.symbols, arranged.blocks⟩

theorem Blocked.deleted (blocked : target.Blocked rest) (deleted : Deleted target other inst) :
    other.Blocked rest := by
  obtain ⟨owner, delimits, names⟩ := blocked
  refine ⟨owner, ?_, ?_⟩
  · rw [deleted.spans]
    exact delimits
  · intro id listed block
    rw [deleted.block]
    exact names id listed block

/-- An instruction that is in no block's run any more is deleted. -/
theorem ArrangedApart.deleted (arranged : target.ArrangedApart (front ++ inst :: back) rest)
    (deleted : Deleted target other inst) : other.ArrangedApart (front ++ back) rest where
  list := by
    rw [deleted.code]
    exact arranged.list.deleteElement
  live := by
    intro id listed
    have nodup := (List.nodup_cons.mp (List.nodup_middle.mp arranged.list.nodup)).1
    rw [deleted.live_iff]
    refine ⟨arranged.live id (by grind), ?_⟩
    rintro rfl
    exact nodup listed
  detached := by
    intro id outside live
    obtain ⟨live, apart⟩ := deleted.live_iff.mp live
    have outside' : id ∉ front ++ inst :: back := by grind
    obtain ⟨detached, blockless⟩ := arranged.detached id outside' live
    rw [deleted.code, deleted.block]
    exact ⟨arranged.list.detached_deleteElement (by simp) outside' detached, blockless⟩
  symbols := by
    obtain ⟨prevEq, nextEq⟩ := arranged.list.neighbours
    obtain ⟨owner, delimits⟩ := arranged.symbols
    rw [deleted.symbolSpan]
    exact ⟨owner, delimits_leaveSpan delimits arranged.list.nodup (fun _ _ => prevEq)
      (fun _ _ => nextEq)⟩
  blocks := arranged.blocks.deleted deleted

/-- The invariant, where the ends of the blocks are those of the instructions of `rest`. -/
structure ConsistentApart (target : TargetGenerator) (order rest : List TargetId) : Prop where
  numbered : target.Numbered
  defUse : target.DefUse
  indexed : target.Indexed
  arranged : target.ArrangedApart order rest

theorem Consistent.apart (consistent : target.Consistent) (arranged : target.Arranged order) :
    target.ConsistentApart order order :=
  ⟨consistent.numbered, consistent.defUse, consistent.indexed, arranged.apart⟩

theorem ConsistentApart.consistent (consistent : target.ConsistentApart order order) :
    target.Consistent :=
  ⟨consistent.numbered, consistent.defUse, consistent.indexed, order, consistent.arranged.arranged⟩

theorem ConsistentApart.of_sameShape (consistent : target.ConsistentApart order rest)
    (same : target.SameShape other) (defUse : other.DefUse) :
    other.ConsistentApart order rest where
  numbered := same.numbered consistent.numbered
  defUse := defUse
  indexed := same.indexed consistent.indexed
  arranged := by
    constructor
    · rw [same.code]
      exact consistent.arranged.list
    · intro id listed
      rw [same.live_iff]
      exact consistent.arranged.live id listed
    · intro id outside live
      rw [same.live_iff] at live
      rw [same.code, same.block]
      exact consistent.arranged.detached id outside live
    · rw [symbolSpan, same.firstSymbol, same.lastSymbol]
      exact consistent.arranged.symbols
    · exact same.blocked consistent.arranged.blocks

theorem ConsistentApart.targetDeleteInstruction
    (consistent : target.ConsistentApart (front ++ inst :: back) rest)
    (unused : ∀ user ∈ target.users inst, user = inst) :
    Deleted target (target.targetDeleteInstruction inst) inst ∧
      (target.targetDeleteInstruction inst).ConsistentApart (front ++ back) rest := by
  obtain ⟨deleted, defUse⟩ := consistent.defUse.targetDeleteInstruction unused
  have live := consistent.arranged.live inst (by simp)
  refine ⟨deleted, ⟨?_, ?_⟩, defUse, consistent.indexed.deleted live deleted,
    consistent.arranged.deleted deleted⟩
  · rw [deleted.nextId]
    exact consistent.numbered.positive
  · intro id listed
    rw [deleted.deleted, List.mem_append, List.mem_singleton] at listed
    rw [deleted.nextId]
    rcases listed with old | rfl
    · exact consistent.numbered.deleted id old
    · exact live.2.1

/-- The instruction is neither the first nor the last of a block. -/
def NoEnd (target : TargetGenerator) (inst : TargetId) : Prop :=
  ∀ block, (target.spans block).code ≠ some inst ∧ (target.spans block).endCode ≠ some inst

/-- The ends of the blocks stay when an instruction between them leaves. -/
theorem Blocked.left (blocked : target.Blocked (front ++ inst :: back))
    (nodup : (front ++ inst :: back).Nodup) (noEnd : target.NoEnd inst) :
    target.Blocked (front ++ back) := by
  obtain ⟨owner, delimits, names⟩ := blocked
  refine ⟨owner, ?_, ?_⟩
  · intro block
    obtain ⟨code, endCode⟩ := noEnd block
    have left : (target.leaveSpan (target.spans block) inst).Delimits (front ++ back) owner block :=
      delimits_leaveSpan (delimits block) nodup (fun isEnd => absurd isEnd endCode)
        (fun isFirst => absurd isFirst code)
    simpa only [leaveSpan, if_neg code, if_neg endCode] using left
  · intro id listed block
    apply names id
    grind

/-- An instruction between the ends of its block that nothing else uses. -/
theorem Consistent.targetDeleteInstruction (consistent : target.Consistent)
    (arranged : target.Arranged order) (listed : inst ∈ order) (noEnd : target.NoEnd inst)
    (unused : ∀ user ∈ target.users inst, user = inst) :
    (target.targetDeleteInstruction inst).Consistent := by
  obtain ⟨front, back, rfl⟩ := List.append_of_mem listed
  have blocks := arranged.blocks.left arranged.list.nodup noEnd
  have left : target.ConsistentApart (front ++ inst :: back) (front ++ back) :=
    ⟨consistent.numbered, consistent.defUse, consistent.indexed,
      ⟨arranged.list, arranged.live, arranged.detached, arranged.symbols, blocks⟩⟩
  exact (left.targetDeleteInstruction unused).2.consistent

theorem Consistent.targetRetargetInstruction (consistent : target.Consistent)
    (newLive : target.Live new) (apart : old ≠ new ∨ target.users old = []) :
    (target.targetRetargetInstruction old new).Consistent := by
  obtain ⟨same, defUse⟩ := consistent.defUse.targetRetargetInstruction newLive apart
  exact consistent.of_sameShape same defUse

/-- Only the destinations of instructions have changed. -/
structure Redirected (target other : TargetGenerator) : Prop where
  same : target.SameShape other
  uses : ∀ id, (other.instructions id).toTargetUses = (target.instructions id).toTargetUses
  operands : ∀ id index, other.operand id index = target.operand id index

variable {dest : Option TargetId}

theorem Redirected.setDest (redirected : Redirected target other) :
    Redirected target (other.setDest inst dest) where
  same := redirected.same.trans sameShape_setDest
  uses := fun id => toTargetUses_setDest.trans (redirected.uses id)
  operands := fun id index => operand_setDest.trans (redirected.operands id index)

theorem Redirected.consistent (redirected : Redirected target other)
    (consistent : target.Consistent) : other.Consistent :=
  consistent.of_sameShape redirected.same
    (consistent.defUse.of_fields redirected.uses redirected.operands fun _ =>
      redirected.same.live_iff)

theorem Consistent.setDest (consistent : target.Consistent) :
    (target.setDest inst dest).Consistent :=
  Redirected.consistent (Redirected.setDest ⟨.refl target, fun _ => rfl, fun _ _ => rfl⟩) consistent

theorem redirected_foldl (old new : TargetId) (list : List TargetId) :
    Redirected target (list.foldl
      (fun target inst =>
        if (target.instructions inst).dest = some old then target.setDest inst (some new)
        else target)
      target) :=
  Loop.foldl_induct (fun _ done => Redirected target done)
    (by
      intro front inst back done split redirected
      split_ifs
      · exact redirected.setDest
      · exact redirected)
    ⟨.refl target, fun _ => rfl, fun _ _ => rfl⟩

theorem users_targetRetargetInstruction :
    (target.targetRetargetInstruction old new).users old = [] := by
  rw [TargetGenerator.targetRetargetInstruction, users, toTargetUses_modifyUses, if_pos rfl]
  rfl

/-- The users of an instruction between the ends of its block move to another one, and it
is deleted. -/
theorem Consistent.targetReplaceInstruction (consistent : target.Consistent)
    (arranged : target.Arranged order) (listed : old ∈ order) (noEnd : target.NoEnd old)
    (newLive : target.Live new) (apart : old ≠ new ∨ target.users old = []) :
    (target.targetReplaceInstruction old new).Consistent := by
  obtain ⟨same, defUse⟩ := consistent.defUse.targetRetargetInstruction newLive apart
  have retargeted := consistent.of_sameShape same defUse
  have unused : (target.targetRetargetInstruction old new).users old = [] :=
    users_targetRetargetInstruction
  rw [TargetGenerator.targetReplaceInstruction]
  generalize target.targetRetargetInstruction old new = between at same retargeted unused
  have redirected : Redirected between _ :=
    redirected_foldl old new (between.walk between.nextInstructionId between.code.first)
  have all := same.trans redirected.same
  apply (redirected.consistent retargeted).targetDeleteInstruction (all.arranged arranged) listed
  · intro block
    rw [all.spans]
    exact noEnd block
  · intro user member
    rw [users, redirected.uses] at member
    change user ∈ between.users old at member
    rw [unused] at member
    cases member

end DaveCC.Backend.TargetGenerator
