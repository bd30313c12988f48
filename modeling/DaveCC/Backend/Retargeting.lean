import DaveCC.Backend.DefUseEdits

/-!
# Retargeting the users of an instruction

A slot that holds `old` is moved to `new`, which gains the user. Moving some slots and
then others moves them all. When every slot is moved, the users of `old` are cleared and
the users are right again.
-/

namespace DaveCC.Backend.TargetGenerator

open DaveCC.Container DaveCC.Loop

variable {target other : TargetGenerator} {inst user old new : TargetId}
  {index : Fin targetMaxOperands}

/-- The slots named that held `old` hold `new`, and `new` has gained their users. -/
structure Moved (old new : TargetId) (target other : TargetGenerator)
    (slots : TargetId → Fin targetMaxOperands → Prop) : Prop where
  same : target.SameShape other
  moved : ∀ user index, slots user index → target.operand user index = some old →
    other.operand user index = some new
  kept : ∀ user index, ¬(slots user index ∧ target.operand user index = some old) →
    other.operand user index = target.operand user index
  records : ∀ uses, target.Records uses → other.Records fun user operand =>
    uses user operand ∨
      (operand = new ∧ ∃ index, slots user index ∧ target.operand user index = some old)
  oldUses : (other.instructions old).toTargetUses = (target.instructions old).toTargetUses

variable {slots further : TargetId → Fin targetMaxOperands → Prop}

namespace Moved

theorem none (old new : TargetId) (target : TargetGenerator) :
    Moved old new target target fun _ _ => False where
  same := .refl target
  moved := by
    intro user index absent
    exact absent.elim
  kept := fun _ _ _ => rfl
  records := by
    intro uses records
    apply records.congr
    simp
  oldUses := rfl

theorem congr (moved : Moved old new target other slots)
    (iff : ∀ user index, slots user index ↔ further user index) :
    Moved old new target other further := by
  have equal : slots = further := by
    funext user index
    exact propext (iff user index)
  rwa [← equal]

theorem trans {third : TargetGenerator} (apart : old ≠ new)
    (first : Moved old new target other slots) (second : Moved old new other third further) :
    Moved old new target third fun user index => slots user index ∨ further user index := by
  -- A slot that has been moved no longer holds `old`.
  have holds : ∀ user index, other.operand user index = some old ↔
      ¬slots user index ∧ target.operand user index = some old := by
    intro user index
    by_cases here : slots user index ∧ target.operand user index = some old
    · rw [first.moved user index here.1 here.2]
      simp [here.1, Ne.symm apart]
    · rw [first.kept user index here]
      constructor
      · intro held
        exact ⟨fun named => here ⟨named, held⟩, held⟩
      · exact And.right
  refine ⟨first.same.trans second.same, ?_, ?_, ?_, second.oldUses.trans first.oldUses⟩
  · intro user index named held
    by_cases here : slots user index
    · have movedFirst := first.moved user index here held
      rw [second.kept user index, movedFirst]
      rw [holds]
      exact fun both => both.2.1 here
    · exact second.moved user index (named.resolve_left here) ((holds user index).mpr ⟨here, held⟩)
  · intro user index untouched
    rw [second.kept user index, first.kept user index]
    · exact fun both => untouched ⟨.inl both.1, both.2⟩
    · rw [holds]
      exact fun both => untouched ⟨.inr both.1, both.2.2⟩
  · intro uses records
    apply (second.records _ (first.records uses records)).congr
    intro user operand
    simp only [holds]
    constructor
    · rintro ((before | ⟨same, index, named, held⟩) | ⟨same, index, named, -, held⟩)
      · exact .inl before
      · exact .inr ⟨same, index, .inl named, held⟩
      · exact .inr ⟨same, index, .inr named, held⟩
    · rintro (before | ⟨same, index, named, held⟩)
      · exact .inl (.inl before)
      · by_cases here : slots user index
        · exact .inl (.inr ⟨same, index, here, held⟩)
        · exact .inr ⟨same, index, named.resolve_left here, here, held⟩

theorem setDest {value : Option TargetId} {id : TargetId}
    (moved : Moved old new target other slots) :
    Moved old new target (other.setDest id value) slots where
  same := moved.same.trans sameShape_setDest
  moved := by
    intro user index named held
    rw [operand_setDest]
    exact moved.moved user index named held
  kept := by
    intro user index untouched
    rw [operand_setDest]
    exact moved.kept user index untouched
  records := fun uses records => (moved.records uses records).setDest
  oldUses := toTargetUses_setDest.trans moved.oldUses

end Moved

theorem moved_slot (apart : old ≠ new) (held : target.operand user index = some old) :
    Moved old new target ((target.setOperand user index (some new)).targetAddUser new user)
      fun other slot => other = user ∧ slot = index where
  same := sameShape_setOperand.trans sameShape_targetAddUser
  moved := by
    intro other slot named _
    rw [operand_targetAddUser, operand_setOperand, if_pos named]
  kept := by
    intro other slot untouched
    rw [operand_targetAddUser, operand_setOperand, if_neg]
    rintro ⟨rfl, rfl⟩
    exact untouched ⟨⟨rfl, rfl⟩, held⟩
  records := by
    intro uses records
    apply records.setOperand.targetAddUser.congr
    intro other operand
    constructor
    · rintro (before | ⟨rfl, rfl⟩)
      · exact .inl before
      · exact .inr ⟨rfl, index, ⟨rfl, rfl⟩, held⟩
    · rintro (before | ⟨rfl, slot, ⟨rfl, rfl⟩, -⟩)
      · exact .inl before
      · exact .inr ⟨rfl, rfl⟩
  oldUses := by
    rw [targetAddUser, toTargetUses_modifyUses, if_neg apart, toTargetUses_setOperand]

/-- A slot that does not hold `old` need not be moved. -/
theorem Moved.of_not_held (other : ¬target.operand user index = some old) :
    Moved old new target target fun held slot => held = user ∧ slot = index where
  same := .refl target
  moved := by
    rintro held slot ⟨rfl, rfl⟩ isOld
    exact absurd isOld other
  kept := fun _ _ _ => rfl
  records := by
    intro uses records
    apply records.congr
    intro held operand
    constructor
    · exact .inl
    · rintro (before | ⟨-, slot, ⟨rfl, rfl⟩, isOld⟩)
      · exact before
      · exact absurd isOld other
  oldUses := rfl

theorem moved_retargetSlot (apart : old ≠ new) :
    Moved old new target (retargetSlot old new user target index)
      fun other slot => other = user ∧ slot = index := by
  have slotMoved : Moved old new target
      (if target.operand user index = some old then
        (target.setOperand user index (some new)).targetAddUser new user
      else target) fun other slot => other = user ∧ slot = index := by
    split_ifs with held
    · exact moved_slot apart held
    · exact .of_not_held held
  rw [retargetSlot]
  split_ifs at slotMoved ⊢
  all_goals first | exact slotMoved | exact slotMoved.setDest

/-- Every slot of one user. -/
theorem moved_retargetUser (apart : old ≠ new) :
    Moved old new target
      ((List.finRange targetMaxOperands).foldl (retargetSlot old new user) target)
      fun other _ => other = user := by
  have moved : Moved old new target
      ((List.finRange targetMaxOperands).foldl (retargetSlot old new user) target)
      fun other slot => other = user ∧ slot ∈ List.finRange targetMaxOperands :=
    foldl_induct
      (fun front done => Moved old new target done fun other slot => other = user ∧ slot ∈ front)
      (by
        rintro front index back done - moved
        apply (moved.trans apart (moved_retargetSlot apart)).congr
        intro other slot
        rw [← and_or_left, List.mem_append, List.mem_singleton])
      ((Moved.none old new target).congr (by simp))
  apply moved.congr
  simp

theorem moved_retargetUsers (apart : old ≠ new) (list : List TargetId) :
    Moved old new target
      (list.foldl
        (fun target user =>
          (List.finRange targetMaxOperands).foldl (retargetSlot old new user) target)
        target)
      fun user _ => user ∈ list :=
  foldl_induct (fun front done => Moved old new target done fun user _ => user ∈ front)
    (by
      rintro front user back done - moved
      apply (moved.trans apart (moved_retargetUser apart)).congr
      intro other slot
      rw [List.mem_append, List.mem_singleton])
    ((Moved.none old new target).congr (by simp))

/-! ## Every use of an instruction is moved -/

variable {change : TargetUses → TargetUses}

/-- Once every slot of its users is moved, an instruction may lose its users. -/
theorem DefUse.of_moved (defUse : target.DefUse) (apart : old ≠ new) (newLive : target.Live new)
    (moved : Moved old new target other fun user _ => user ∈ target.users old)
    (agree : (change (other.instructions old).toTargetUses).Agree)
    (cleared : (change (other.instructions old).toTargetUses).users = []) :
    (other.modifyUses old change).DefUse := by
  have records := (moved.records _ defUse.records).modifyUses (fun _ => False) agree
    (by simp [cleared])
  apply DefUse.of_records (moved.same.trans sameShape_modifyUses) records
  · intro user operand
    rw [hasOperand_congr fun _ _ => operand_modifyUses]
    split_ifs with here
    · subst here
      rw [false_iff]
      rintro ⟨live, index, held⟩
      by_cases touched : user ∈ target.users operand ∧ target.operand user index = some operand
      · rw [moved.moved user index touched.1 touched.2, Option.some.injEq] at held
        exact apart held.symm
      · rw [moved.kept user index touched] at held
        exact touched ⟨defUse.mem_users.mpr ⟨live, index, held⟩, held⟩
    · constructor
      · rintro (⟨live, index, held⟩ | ⟨rfl, index, listed, held⟩)
        · refine ⟨live, index, ?_⟩
          rw [moved.kept user index, held]
          rw [held, Option.some.injEq]
          exact fun both => here both.2
        · exact ⟨(defUse.mem_users.mp listed).1, index, moved.moved user index listed held⟩
      · rintro ⟨live, index, held⟩
        by_cases touched : user ∈ target.users old ∧ target.operand user index = some old
        · rw [moved.moved user index touched.1 touched.2, Option.some.injEq] at held
          exact .inr ⟨held.symm, index, touched⟩
        · rw [moved.kept user index touched] at held
          exact .inl ⟨live, index, held⟩
  · intro user operand used
    split_ifs at used
    rcases used with ⟨live, has⟩ | ⟨rfl, -⟩
    · exact defUse.live_operand live has
    · exact newLive

/-- Clearing the users of an instruction that has none. -/
theorem DefUse.of_unused (defUse : target.DefUse) (unused : target.users inst = [])
    (agree : (change (target.instructions inst).toTargetUses).Agree)
    (cleared : (change (target.instructions inst).toTargetUses).users = []) :
    (target.modifyUses inst change).DefUse := by
  have records := defUse.records.modifyUses (fun _ => False) agree (by simp [cleared])
  have none : ∀ user, ¬(target.Live user ∧ target.HasOperand user inst) := by
    intro user used
    have listed := defUse.mem_users.mpr used
    rw [unused] at listed
    exact List.not_mem_nil listed
  apply DefUse.of_records sameShape_modifyUses records
  · intro user operand
    rw [hasOperand_congr fun _ _ => operand_modifyUses]
    split_ifs with here
    · subst here
      rw [false_iff]
      exact none user
    · exact Iff.rfl
  · intro user operand used
    split_ifs at used
    exact defUse.live_operand used.1 used.2

/-- Users that move to another live instruction, or none at all. -/
theorem DefUse.targetRetargetInstruction (defUse : target.DefUse) (newLive : target.Live new)
    (apart : old ≠ new ∨ target.users old = []) :
    target.SameShape (target.targetRetargetInstruction old new) ∧
      (target.targetRetargetInstruction old new).DefUse := by
  have clears (inst : TargetUses) : ({ inst.clearUsers with uses := 0 } : TargetUses).Agree :=
    TargetUses.Agree.clearUsers (show ({ inst with uses := 0 } : TargetUses).uses = 0 from rfl)
  rw [TargetGenerator.targetRetargetInstruction]
  rcases apart with apart | unused
  · have moved : Moved old new target _ _ := moved_retargetUsers apart (target.users old)
    exact ⟨moved.same.trans sameShape_modifyUses, defUse.of_moved apart newLive moved (clears _) rfl⟩
  · simp only [unused, List.foldl_nil]
    exact ⟨sameShape_modifyUses, defUse.of_unused unused (clears _) rfl⟩

/-- The number of slots of the user that hold `old`. -/
def slotCount (target : TargetGenerator) (old user : TargetId) : Nat :=
  (List.finRange targetMaxOperands).countP fun index => target.operand user index = some old

/-- The slots named are moved, and the count is as given. -/
structure MovedCounted (old new : TargetId) (target : TargetGenerator)
    (done : TargetGenerator × Nat) (slots : TargetId → Fin targetMaxOperands → Prop)
    (count : Nat) : Prop where
  moved : Moved old new target done.1 slots
  counted : done.2 = count

variable {predicate : TargetId → Bool} {count : Nat} {done : TargetGenerator × Nat}

/-- One more slot of a user that the predicate accepts. -/
theorem MovedCounted.slot {front : List (Fin targetMaxOperands)} (apart : old ≠ new)
    (accepted : predicate user = true) (fresh : index ∉ front)
    (before : MovedCounted old new target done (fun other slot => other = user ∧ slot ∈ front)
      (count + front.countP fun index => target.operand user index = some old)) :
    MovedCounted old new target (retargetSlotIf old new predicate user done index)
      (fun other slot => other = user ∧ slot ∈ front ++ [index])
      (count + (front ++ [index]).countP fun index => target.operand user index = some old) := by
  have slot : done.1.operand user index = target.operand user index :=
    before.moved.kept user index fun both => fresh both.1.2
  have joins : ∀ other slot, (other = user ∧ slot ∈ front ∨ other = user ∧ slot = index) ↔
      other = user ∧ slot ∈ front ++ [index] := by
    intro other slot
    rw [← and_or_left, List.mem_append, List.mem_singleton]
  have counted := before.counted
  rw [retargetSlotIf, slot, List.countP_append, List.countP_singleton]
  by_cases held : target.operand user index = some old
  · have step := moved_slot apart (slot.trans held)
    simp only [held, accepted, and_self, if_true, decide_true]
    refine ⟨(before.moved.trans apart step).congr joins, ?_⟩
    rw [counted, Nat.add_assoc]
  · have step : Moved old new done.1 done.1 fun other place => other = user ∧ place = index := by
      apply Moved.of_not_held
      rwa [slot]
    simp only [held, false_and, if_false, decide_false, Bool.false_eq_true]
    exact ⟨(before.moved.trans apart step).congr joins, counted⟩

/-- The slots of a user that the predicate accepts are moved and counted. -/
theorem movedCounted_user (apart : old ≠ new) (accepted : predicate user = true) :
    MovedCounted old new target
      ((List.finRange targetMaxOperands).foldl (retargetSlotIf old new predicate user)
        (target, count))
      (fun other _ => other = user) (count + target.slotCount old user) := by
  have all : MovedCounted old new target
      ((List.finRange targetMaxOperands).foldl (retargetSlotIf old new predicate user)
        (target, count))
      (fun other slot => other = user ∧ slot ∈ List.finRange targetMaxOperands)
      (count + target.slotCount old user) :=
    foldl_induct
      (fun front done => MovedCounted old new target done
        (fun other slot => other = user ∧ slot ∈ front)
        (count + front.countP fun index => target.operand user index = some old))
      (by
        intro front index back done split before
        apply before.slot apart accepted
        have nodup := List.nodup_finRange targetMaxOperands
        rw [split] at nodup
        exact fun member =>
          (List.nodup_cons.mp (List.nodup_middle.mp nodup)).1 (List.mem_append_left _ member))
      ⟨(Moved.none old new target).congr (by simp), rfl⟩
  exact ⟨all.moved.congr (by simp), all.counted⟩

variable {list : List TargetId}

/-- Users that the predicate accepts and that hold `old` in one slot each. -/
theorem movedCounted_users (apart : old ≠ new) (nodup : list.Nodup)
    (accepted : ∀ user ∈ list, predicate user = true)
    (single : ∀ user ∈ list, target.slotCount old user = 1) :
    MovedCounted old new target
      (list.foldl
        (fun state user =>
          (List.finRange targetMaxOperands).foldl (retargetSlotIf old new predicate user) state)
        (target, 0))
      (fun user _ => user ∈ list) list.length :=
  foldl_induct
    (fun front done => MovedCounted old new target done (fun user _ => user ∈ front) front.length)
    (by
      intro front user back done split before
      have listed : user ∈ list := by simp [split]
      have fresh : user ∉ front := by
        rw [split] at nodup
        exact fun member =>
          (List.nodup_cons.mp (List.nodup_middle.mp nodup)).1 (List.mem_append_left _ member)
      have counts : done.1.slotCount old user = 1 := by
        rw [← single user listed, slotCount, slotCount]
        apply List.countP_congr
        intro index _
        rw [before.moved.kept user index fun both => fresh both.1]
      have step : MovedCounted old new done.1
          ((List.finRange targetMaxOperands).foldl (retargetSlotIf old new predicate user) done)
          _ _ := movedCounted_user apart (accepted user listed)
      refine ⟨(before.moved.trans apart step.moved).congr ?_, ?_⟩
      · intro other slot
        rw [List.mem_append, List.mem_singleton]
      · rw [List.length_append, List.length_singleton, ← before.counted, ← counts]
        exact step.counted)
    ⟨(Moved.none old new target).congr (by simp), rfl⟩

/-- Users that the predicate refuses stay as they are. -/
theorem retargetUsersIf_refused (refused : ∀ user ∈ list, predicate user = false)
    (done : TargetGenerator × Nat) :
    list.foldl
        (fun state user =>
          (List.finRange targetMaxOperands).foldl (retargetSlotIf old new predicate user) state)
        done = done := by
  have slotKept (user : TargetId) (listed : user ∈ list) (slots : List (Fin targetMaxOperands)) :
      slots.foldl (retargetSlotIf old new predicate user) done = done := by
    induction slots with
    | nil => rfl
    | cons slot rest ih =>
      have same : retargetSlotIf old new predicate user done slot = done := by
        rw [retargetSlotIf, if_neg]
        simp [refused user listed]
      rw [List.foldl_cons, same]
      exact ih
  induction list with
  | nil => rfl
  | cons user rest ih =>
    rw [List.foldl_cons, slotKept user List.mem_cons_self]
    apply ih
    · intro other listed
      exact refused other (List.mem_cons_of_mem _ listed)
    · intro other listed
      exact slotKept other (List.mem_cons_of_mem _ listed)

/-- No user moves, or every user does, out of its only slot. -/
def MovesAllOrNone (target : TargetGenerator) (old new : TargetId)
    (predicate : TargetId → Bool) : Prop :=
  (∀ user ∈ target.users old, predicate user = false) ∨
    (old ≠ new ∧ ∀ user ∈ target.users old, predicate user = true ∧ target.slotCount old user = 1)

theorem modifyUses_modifyUses {first second : TargetUses → TargetUses} :
    (target.modifyUses inst first).modifyUses inst second =
      target.modifyUses inst fun uses => second (first uses) := by
  simp [modifyUses, modify]

theorem modifyUses_self (same : change (target.instructions inst).toTargetUses =
      (target.instructions inst).toTargetUses) : target.modifyUses inst change = target := by
  rw [modifyUses, modify, same, Function.update_eq_self]

theorem DefUse.targetRetargetInstructionIf (defUse : target.DefUse) (newLive : target.Live new)
    (moves : target.MovesAllOrNone old new predicate) :
    target.SameShape (target.targetRetargetInstructionIf old new predicate) ∧
      (target.targetRetargetInstructionIf old new predicate).DefUse := by
  have agree := defUse.records.agree old
  rw [TargetGenerator.targetRetargetInstructionIf]
  rcases moves with refused | ⟨apart, moves⟩
  · have unchanged : target.modifyUses old (fun inst =>
        { inst with uses := (inst.users.length : Int) - (0 : Nat) }) = target := by
      apply modifyUses_self
      have count := agree.count
      cases usesEq : (target.instructions old).toTargetUses with
      | mk users userIndex uses =>
        rw [usesEq] at count
        simp only at count
        simp [count]
    rw [retargetUsersIf_refused refused]
    simp only [unchanged]
    split_ifs with zero
    · have unused : target.users old = [] := by
        have count := agree.count
        rw [zero] at count
        exact List.length_eq_zero_iff.mp (Int.ofNat_eq_zero.mp count.symm)
      exact ⟨sameShape_modifyUses, defUse.of_unused unused (TargetUses.Agree.clearUsers zero) rfl⟩
    · exact ⟨.refl target, defUse⟩
  · have nodup : (target.users old).Nodup := agree.nodup
    have all : MovedCounted old new target _ _ _ := movedCounted_users apart nodup
      (fun user listed => (moves user listed).1) (fun user listed => (moves user listed).2)
    obtain ⟨moved, counted⟩ := all
    generalize (target.users old).foldl _ (target, 0) = done at moved counted ⊢
    obtain ⟨other, number⟩ := done
    simp only at moved counted ⊢
    have zero : ((other.modifyUses old fun inst =>
        { inst with uses := (inst.users.length : Int) - number }).instructions old).uses = 0 := by
      rw [toTargetUses_modifyUses, if_pos rfl, moved.oldUses, counted]
      exact Int.sub_self _
    rw [if_pos zero, modifyUses_modifyUses]
    refine ⟨moved.same.trans sameShape_modifyUses, defUse.of_moved apart newLive moved ?_ rfl⟩
    apply TargetUses.Agree.clearUsers
    rw [moved.oldUses, counted]
    exact Int.sub_self _

end DaveCC.Backend.TargetGenerator
