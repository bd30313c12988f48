import DaveCC.Backend.TargetDeletion

/-!
# Removing a target instruction from its block

An instruction is removed with its users, each of which is removed with its own users.
The list of users is read by position while it shrinks, so no user but the first of each
list is reached before those after it move up. The ends of the blocks are moved on the
way to the last user, before any of the instructions leaves the list.
-/

namespace DaveCC.Backend.TargetGenerator

open DaveCC.Container DaveCC.Loop

variable {target between other : TargetGenerator} {order rest front back passed : List TargetId}
  {later : List TargetId} {inst user id : TargetId} {block : BlockId}
  {owner : NodeId → Option BlockId} {fuel : Nat}

/-- The generator once the ends of the block have moved. -/
def pass (target : TargetGenerator) (block : BlockId) (inst : TargetId) : TargetGenerator :=
  target.setSpan block (target.leaveSpan (target.spans block) inst)

/-- What is done to an instruction once its users are gone. -/
def discard (target : TargetGenerator) (inst : TargetId) : TargetGenerator :=
  (target.modifyUses inst TargetUses.clearUsers).targetDeleteInstruction inst

/-- An instruction without users is deleted. -/
theorem removes_unused (unused : target.users inst = [])
    (returns : targetBasicBlockRemoveInstruction (fuel + 1) target block inst = some other) :
    other = (target.pass block inst).discard inst := by
  rw [targetBasicBlockRemoveInstruction] at returns
  simp only [Option.bind_eq_bind, Option.bind_eq_some_iff] at returns
  obtain ⟨state, loop, result⟩ := returns
  rw [runWhile_of_not] at loop
  · cases loop
    exact (Option.some.inj result).symm
  · have none : (target.pass block inst).users inst = [] := unused
    change decide (0 < ((target.pass block inst).users inst).length) = false
    rw [none]
    rfl

/-- An instruction is deleted after its first user when no user is left by then. -/
theorem removes_used (first : (target.users inst).head? = some user)
    (operand : target.HasOperand user inst) (removed : ∀ userBlock between, target.blockOf user =
      some userBlock → targetBasicBlockRemoveInstruction fuel (target.pass block inst) userBlock
      user = some between → between.users inst = [])
    (returns : targetBasicBlockRemoveInstruction (fuel + 1) target block inst = some other) :
    ∃ userBlock between, target.blockOf user = some userBlock ∧
      targetBasicBlockRemoveInstruction fuel (target.pass block inst) userBlock user =
        some between ∧ other = between.discard inst := by
  rw [targetBasicBlockRemoveInstruction] at returns
  simp only [Option.bind_eq_bind, Option.bind_eq_some_iff] at returns
  obtain ⟨state, loop, result⟩ := returns
  change runWhile _ _ fuel (target.pass block inst, 0) = some state at loop
  have passedFirst : ((target.pass block inst).users inst)[0]? = some user := by
    rw [← List.head?_eq_getElem?]
    exact first
  have positive : 0 < ((target.pass block inst).users inst).length :=
    (List.getElem?_eq_some_iff.mp passedFirst).1
  have passedOperand : ∃ index, (target.pass block inst).operand user index = some inst := operand
  unfold runWhile at loop
  simp only [positive, decide_true, if_true] at loop
  cases fuel with
  | zero => cases loop
  | succ fuel =>
    simp only [passedFirst, Option.bind_some, passedOperand, if_true, Option.bind_eq_some_iff,
      Option.bind_assoc] at loop
    obtain ⟨userBlock, owned, between, recursion, loop⟩ := loop
    have gone := removed userBlock between owned recursion
    rw [runWhile_of_not (by simp [gone])] at loop
    cases loop
    exact ⟨userBlock, between, owned, recursion, (Option.some.inj result).symm⟩

/-- The first user of each instruction is removed with all its other users. -/
def RemovedInTurn (users : TargetId → List TargetId) : TargetId → List TargetId → Prop
  | inst, [] => users inst = []
  | inst, next :: later =>
    (users inst).head? = some next ∧ (∀ user ∈ users inst, user ∈ next :: later) ∧
      RemovedInTurn users next later

variable {users : TargetId → List TargetId} {more : List TargetId}

theorem RemovedInTurn.unique (left : RemovedInTurn users inst later)
    (right : RemovedInTurn users inst more) : later = more := by
  induction later generalizing inst more with
  | nil =>
    cases more with
    | nil => rfl
    | cons next rest =>
      have unused : users inst = [] := left
      have used := right.1
      rw [unused] at used
      cases used
  | cons next rest ih =>
    cases more with
    | nil =>
      have unused : users inst = [] := right
      have used := left.1
      rw [unused] at used
      cases used
    | cons other more =>
      have same : next = other := Option.some.inj (left.1.symm.trans right.1)
      subst same
      rw [ih left.2.2 right.2.2]

theorem RemovedInTurn.of_append (turns : RemovedInTurn users inst (front ++ user :: back)) :
    RemovedInTurn users user back := by
  induction front generalizing inst with
  | nil => exact turns.2.2
  | cons next front ih => exact ih turns.2.2

/-- No instruction is reached twice. -/
theorem RemovedInTurn.nodup (turns : RemovedInTurn users inst later) : (inst :: later).Nodup := by
  have fresh {inst : TargetId} {later : List TargetId} (turns : RemovedInTurn users inst later) :
      inst ∉ later := by
    intro again
    obtain ⟨front, back, rfl⟩ := List.append_of_mem again
    have lengths := congrArg List.length (turns.unique turns.of_append)
    simp only [List.length_append, List.length_cons] at lengths
    omega
  induction later generalizing inst with
  | nil => exact List.nodup_singleton inst
  | cons next later ih => exact List.nodup_cons.mpr ⟨fresh turns, ih turns.2.2⟩

/-- The instructions are no longer live, and every operand stays. -/
structure Gone (target other : TargetGenerator) (gone : List TargetId) : Prop where
  live_iff : ∀ id, other.Live id ↔ target.Live id ∧ id ∉ gone
  operands : ∀ id index, other.operand id index = target.operand id index

variable {gone : List TargetId}

theorem Gone.trans (first : Gone target between gone) (second : Gone between other more) :
    Gone target other (more ++ gone) where
  live_iff := by
    intro id
    rw [second.live_iff, first.live_iff, List.mem_append, not_or, and_assoc, and_comm (a := id ∉ gone)]
  operands := fun id index => (second.operands id index).trans (first.operands id index)

/-- A user that is left was a user before. -/
theorem Gone.mem_users (isGone : Gone target other gone) (defUse : target.DefUse)
    (otherDefUse : other.DefUse) (listed : user ∈ other.users inst) :
    user ∈ target.users inst ∧ user ∉ gone := by
  obtain ⟨live, has⟩ := otherDefUse.mem_users.mp listed
  obtain ⟨live, kept⟩ := (isGone.live_iff user).mp live
  exact ⟨defUse.mem_users.mpr ⟨live, (hasOperand_congr isGone.operands).mp has⟩, kept⟩

theorem ConsistentApart.discard (consistent : target.ConsistentApart (front ++ inst :: back) rest)
    (unused : target.users inst = []) :
    Gone target (target.discard inst) [inst] ∧
      (target.discard inst).ConsistentApart (front ++ back) rest := by
  have count : (target.instructions inst).uses = 0 := by
    rw [(consistent.defUse.records.agree inst).count,
      show (target.instructions inst).users = [] from unused]
    rfl
  have cleared := consistent.of_sameShape sameShape_modifyUses
    (consistent.defUse.of_unused unused (TargetUses.Agree.clearUsers count) rfl)
  have clearedUsers : (target.modifyUses inst TargetUses.clearUsers).users inst = [] := by
    rw [users, toTargetUses_modifyUses, if_pos rfl]
    rfl
  obtain ⟨deleted, left⟩ := cleared.targetDeleteInstruction (by simp [clearedUsers])
  refine ⟨⟨?_, ?_⟩, left⟩
  · intro id
    rw [List.mem_singleton]
    exact deleted.live_iff
  · intro id index
    exact (deleted.operands id index).trans operand_modifyUses

theorem gone_pass (target : TargetGenerator) (block : BlockId) (inst : TargetId) :
    Gone target (target.pass block inst) [] where
  live_iff := by
    intro id
    simp only [List.not_mem_nil, not_false_eq_true, and_true]
    exact Iff.rfl
  operands := fun _ _ => rfl

/-- An instruction follows its users. -/
theorem Gone.discard (isGone : Gone target between gone)
    (consistent : between.ConsistentApart (remaining gone order) rest) (nodup : order.Nodup)
    (listed : inst ∈ order) (fresh : inst ∉ gone) (unused : between.users inst = []) :
    Gone target (between.discard inst) (inst :: gone) ∧
      (between.discard inst).ConsistentApart (remaining (inst :: gone) order) rest := by
  obtain ⟨front, back, rfl⟩ := List.append_of_mem listed
  rw [remaining_append, remaining_cons fresh] at consistent
  obtain ⟨discarded, left⟩ := consistent.discard unused
  have shape : remaining (inst :: gone) (front ++ inst :: back) =
      remaining gone front ++ remaining gone back := by
    rw [← remaining_concat nodup]
    apply remaining_congr
    intro id
    simp [or_comm]
  rw [shape]
  exact ⟨isGone.trans discarded, left⟩

/-! ## Removing an instruction with its users -/

/-- Some instructions have been passed: the ends of the blocks are those of the others. -/
structure Passed (target : TargetGenerator) (owner : NodeId → Option BlockId)
    (order passed : List TargetId) : Prop where
  consistent : target.ConsistentApart order (remaining passed order)
  delimits : ∀ block, (target.spans block).Delimits (remaining passed order) owner block
  names : ∀ id ∈ remaining passed order, ∀ block, target.blockOf id = some block →
    owner id = some block

/-- Only the block may have the instruction for an end. -/
def EndsOnly (target : TargetGenerator) (inst : TargetId) (block : BlockId) : Prop :=
  ∀ other, (target.spans other).code = some inst ∨ (target.spans other).endCode = some inst →
    other = block

variable {start : BlockId → CodeSpan}

/-- One more instruction is passed. -/
theorem Passed.pass (ready : target.Passed owner order passed) (fresh : inst ∉ passed)
    (listed : inst ∈ order) (ends : target.EndsOnly inst block)
    (started : ∀ block, (start block).Delimits order owner block)
    (kept : ∀ left right, (start block).RunAround order left inst right →
      NeighbourKept passed left right ∧ NeighbourKept passed right.reverse left.reverse) :
    (target.pass block inst).Passed owner order (passed ++ [inst]) := by
  obtain ⟨front, back, rfl⟩ := List.append_of_mem listed
  obtain ⟨prevEq, nextEq⟩ := ready.consistent.arranged.list.neighbours
  have nodup := ready.consistent.arranged.list.nodup
  have before : remaining passed (front ++ inst :: back) =
      remaining passed front ++ inst :: remaining passed back := by
    rw [remaining_append, remaining_cons fresh]
  have leftNodup := nodup.filter (· ∉ passed)
  change (remaining passed (front ++ inst :: back)).Nodup at leftNodup
  rw [before] at leftNodup
  have delimits (own : BlockId) := before ▸ ready.delimits own
  have left : ∀ own, ((target.pass block inst).spans own).Delimits
      (remaining (passed ++ [inst]) (front ++ inst :: back)) owner own := by
    intro own
    rw [remaining_concat nodup]
    change (Function.update target.spans block _ own).Delimits _ _ _
    by_cases here : own = block
    · subst here
      rw [Function.update_self]
      apply delimits_leaveSpan (delimits own) leftNodup
      · intro last notFirst
        rw [prevEq]
        exact getLast?_remaining nodup fresh (started own) (delimits own) last notFirst
          fun left right around => (kept left right around).2
      · intro first notLast
        rw [nextEq]
        exact head?_remaining nodup fresh (started own) (delimits own) first notLast
          fun left right around => (kept left right around).1
    · rw [Function.update_of_ne here]
      have same : target.leaveSpan (target.spans own) inst = target.spans own := by
        have notFirst : (target.spans own).code ≠ some inst := fun first => here (ends own (.inl first))
        have notLast : (target.spans own).endCode ≠ some inst := fun last => here (ends own (.inr last))
        simp only [leaveSpan, if_neg notFirst, if_neg notLast]
      rw [← same]
      apply delimits_leaveSpan (delimits own) leftNodup
      · intro last
        exact absurd (ends own (.inr last)) here
      · intro first
        exact absurd (ends own (.inl first)) here
  have names : ∀ id ∈ remaining (passed ++ [inst]) (front ++ inst :: back), ∀ block,
      target.blockOf id = some block → owner id = some block := by
    intro id member
    apply ready.names id
    rw [mem_remaining] at member ⊢
    exact ⟨member.1, fun old => member.2 (List.mem_append_left _ old)⟩
  obtain ⟨numbered, defUse, indexed, arranged⟩ := ready.consistent
  exact ⟨⟨⟨numbered.positive, numbered.deleted⟩,
    ⟨⟨defUse.records.mem_users, defUse.records.agree⟩, defUse.retired⟩,
    ⟨indexed.valid, indexed.find_iff⟩,
    ⟨arranged.list, arranged.live, arranged.detached, arranged.symbols, owner, left, names⟩⟩,
    left, names⟩

/-- An instruction whose users are removed in turn is removed with them. -/
theorem Passed.removes (started : ∀ block, (start block).Delimits order owner block)
    (ready : target.Passed owner order passed) (fresh : ∀ id ∈ inst :: later, id ∉ passed)
    (listed : inst ∈ order) (ends : target.EndsOnly inst block)
    (kept : EndsKept start order (passed ++ inst :: later))
    (turns : RemovedInTurn target.users inst later)
    (returns : targetBasicBlockRemoveInstruction fuel target block inst = some other) :
    Gone target other (inst :: later) ∧
      other.ConsistentApart (remaining (inst :: later) order)
        (remaining (passed ++ inst :: later) order) := by
  induction later generalizing fuel target block inst passed other with
  | nil =>
    cases fuel with
    | zero => cases returns
    | succ fuel =>
      have nodup := ready.consistent.arranged.list.nodup
      have passes := ready.pass (fresh inst (by simp)) listed ends started
        fun left right around => kept passed inst [] block left right rfl around
      have unused : (target.pass block inst).users inst = [] := turns
      have consistent : (target.pass block inst).ConsistentApart (remaining [] order)
          (remaining (passed ++ [inst]) order) := remaining_nil.symm ▸ passes.consistent
      rw [removes_unused turns returns]
      exact (gone_pass target block inst).discard consistent nodup listed List.not_mem_nil unused
  | cons next later ih =>
    cases fuel with
    | zero => cases returns
    | succ fuel =>
      have nodup := ready.consistent.arranged.list.nodup
      have passes := ready.pass (fresh inst (by simp)) listed ends started
        fun left right around =>
          kept passed inst (next :: later) block left right rfl around
      have defUse := passes.consistent.defUse
      have turnsNodup := turns.nodup
      obtain ⟨first, users, nextTurns⟩ := turns
      have used : next ∈ (target.pass block inst).users inst := List.mem_of_head? first
      obtain ⟨live, operand⟩ := defUse.mem_users.mp used
      have instFresh := (List.nodup_cons.mp turnsNodup).1
      -- The users of the instruction are gone once the first one has been removed.
      have removed : ∀ userBlock between, target.blockOf next = some userBlock →
          targetBasicBlockRemoveInstruction fuel (target.pass block inst) userBlock next =
            some between →
          Gone (target.pass block inst) between (next :: later) ∧
            between.ConsistentApart (remaining (next :: later) order)
              (remaining (passed ++ [inst] ++ next :: later) order) ∧
            between.users inst = [] := by
        intro userBlock between owned recursion
        have nextFresh : ∀ id ∈ next :: later, id ∉ passed ++ [inst] := by
          intro id member
          rw [List.mem_append, List.mem_singleton, not_or]
          refine ⟨fresh id (by simp [member]), ?_⟩
          rintro rfl
          exact instFresh member
        have nextListed : next ∈ order := by
          by_contra outside
          have blockless := (passes.consistent.arranged.detached next outside live).2
          have owned' : (target.pass block inst).blockOf next = some userBlock := owned
          rw [blockless] at owned'
          cases owned'
        have nextOwner : owner next = some userBlock := by
          apply passes.names next _ userBlock owned
          exact mem_remaining.mpr ⟨nextListed, nextFresh next (by simp)⟩
        have nextEnds : (target.pass block inst).EndsOnly next userBlock := by
          intro other isEnd
          rcases isEnd with code | endCode
          · have own := ((passes.delimits other).mem_of_code code).2
            exact Option.some.inj (own.symm.trans nextOwner)
          · have own := ((passes.delimits other).mem_of_endCode endCode).2
            exact Option.some.inj (own.symm.trans nextOwner)
        have nextKept : EndsKept start order (passed ++ [inst] ++ next :: later) := by
          simpa using kept
        obtain ⟨gone, consistent⟩ :=
          ih passes nextFresh nextListed nextEnds nextKept nextTurns recursion
        refine ⟨gone, consistent, ?_⟩
        apply List.eq_nil_iff_forall_not_mem.mpr
        intro user left
        obtain ⟨listedUser, kept⟩ := gone.mem_users defUse consistent.defUse left
        exact kept (users user listedUser)
      obtain ⟨userBlock, between, owned, recursion, result⟩ :=
        removes_used first operand
          (fun userBlock between owned recursion =>
            (removed userBlock between owned recursion).2.2) returns
      obtain ⟨gone, consistent, unused⟩ := removed userBlock between owned recursion
      have all := (gone_pass target block inst).trans gone
      rw [List.append_nil] at all
      have rest : passed ++ inst :: next :: later = passed ++ [inst] ++ next :: later := by simp
      rw [result, rest]
      exact all.discard consistent nodup listed instFresh unused

/-- An instruction is removed from its block with users that are removed in turn. -/
theorem Consistent.targetBasicBlockRemoveInstruction (consistent : target.Consistent)
    (arranged : target.Arranged order) (listed : inst ∈ order) (ends : target.EndsOnly inst block)
    (turns : RemovedInTurn target.users inst later)
    (kept : EndsKept target.spans order (inst :: later))
    (returns : targetBasicBlockRemoveInstruction fuel target block inst = some other) :
    other.Consistent := by
  obtain ⟨owner, delimits, names⟩ := arranged.blocks
  have ready : target.Passed owner order [] := by
    refine ⟨?_, ?_, ?_⟩
    · rw [remaining_nil]
      exact consistent.apart arranged
    · rw [remaining_nil]
      exact delimits
    · rw [remaining_nil]
      exact names
  have fresh : ∀ id ∈ inst :: later, id ∉ [] := fun _ _ => List.not_mem_nil
  exact (ready.removes delimits fresh listed ends kept turns returns).2.consistent

end DaveCC.Backend.TargetGenerator
