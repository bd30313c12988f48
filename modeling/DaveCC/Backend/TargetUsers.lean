import DaveCC.Container.SortedVector

/-!
# The users of a target instruction

An instruction lists the instructions that use its value, each of them once. From the
eighth user on it also keeps them in an index sorted by id, which later changes keep in
step. An instruction is known by its id, which is given out once.
-/

namespace DaveCC.Backend

open DaveCC.Container

abbrev TargetId := Nat

def targetUserIndexThreshold : Nat := 8

/-- The fields `users`, `user_index` and `uses` of a `TargetInstruction`. -/
structure TargetUses where
  users : List TargetId := []
  userIndex : Option (List TargetId) := none
  uses : Int := 0
  deriving DecidableEq

namespace TargetUses

/-- `TargetBuildUserIndex`. -/
def buildUserIndex (inst : TargetUses) : TargetUses :=
  { inst with userIndex := some (inst.users.insertionSort (· ≤ ·)) }

/-- `TargetAddUser`. -/
def addUser (inst : TargetUses) (user : TargetId) : TargetUses :=
  match inst.userIndex with
  | none =>
    if user ∈ inst.users then inst
    else
      let inst := { inst with users := inst.users ++ [user], uses := inst.uses + 1 }
      if inst.users.length = targetUserIndexThreshold then inst.buildUserIndex else inst
  | some userIndex =>
    if SortedVector.found userIndex user then inst
    else
      { users := inst.users ++ [user]
        userIndex := some
          (SortedVector.insertAt userIndex (SortedVector.position userIndex user) user)
        uses := inst.uses + 1 }

/-- `TargetRemoveUser`. -/
def removeUser (inst : TargetUses) (user : TargetId) : TargetUses :=
  match inst.userIndex with
  | none =>
    if user ∈ inst.users then
      { inst with users := inst.users.erase user, uses := inst.uses - 1 }
    else inst
  | some userIndex =>
    if SortedVector.found userIndex user then
      if user ∈ inst.users then
        { users := inst.users.erase user
          userIndex := some (userIndex.eraseIdx (SortedVector.position userIndex user))
          uses := inst.uses - 1 }
      else inst
    else inst

/-- `TargetClearInstructionUsers`. -/
def clearUsers (inst : TargetUses) : TargetUses :=
  { inst with users := [], userIndex := inst.userIndex.map fun _ => [] }

/-- `TargetDestructInstructionUsers`. -/
def destructUsers (inst : TargetUses) : TargetUses :=
  { inst with users := [], userIndex := none }

/-- The index holds the users in ascending order. -/
def IndexOf (userIndex users : List TargetId) : Prop :=
  userIndex.Perm users ∧ SortedVector.Ascending userIndex

/-- The users are distinct, the count is their number, and the index holds them. -/
structure Agree (inst : TargetUses) : Prop where
  nodup : inst.users.Nodup
  count : inst.uses = inst.users.length
  index : ∀ userIndex, inst.userIndex = some userIndex → IndexOf userIndex inst.users

variable {inst : TargetUses} {user : TargetId} {userIndex users : List TargetId}

theorem agree_empty : ({} : TargetUses).Agree :=
  ⟨List.nodup_nil, rfl, by intro userIndex absent; cases absent⟩

theorem IndexOf.sort (nodup : users.Nodup) : IndexOf (users.insertionSort (· ≤ ·)) users := by
  have perm := List.perm_insertionSort (· ≤ ·) users
  refine ⟨perm, ?_⟩
  have sorted := List.pairwise_insertionSort (· ≤ ·) users
  have distinct := perm.nodup_iff.mpr nodup
  exact (sorted.and distinct).imp fun both => lt_of_le_of_ne both.1 both.2

theorem IndexOf.found_iff (indexOf : IndexOf userIndex users) :
    SortedVector.found userIndex user = true ↔ user ∈ users :=
  indexOf.2.found_iff.trans indexOf.1.mem_iff

theorem IndexOf.insert (indexOf : IndexOf userIndex users) (absent : user ∉ users) :
    IndexOf (SortedVector.insertAt userIndex (SortedVector.position userIndex user) user)
      (users ++ [user]) := by
  have absent' : user ∉ userIndex := fun member => absent (indexOf.1.mem_iff.mp member)
  refine ⟨?_, indexOf.2.insertAt absent'⟩
  have inserted := SortedVector.insertAt_perm userIndex (SortedVector.position userIndex user) user
  exact inserted.trans ((indexOf.1.cons user).trans (List.perm_append_singleton user users).symm)

theorem IndexOf.erase (indexOf : IndexOf userIndex users) (member : user ∈ users) :
    IndexOf (userIndex.eraseIdx (SortedVector.position userIndex user)) (users.erase user) := by
  rw [indexOf.2.eraseIdx_position (indexOf.1.mem_iff.mpr member)]
  exact ⟨indexOf.1.erase user, indexOf.2.erase⟩

namespace Agree

/-- A user that is new is appended, and one that is listed changes nothing. -/
theorem addUser (agree : inst.Agree) (user : TargetId) :
    (inst.addUser user).Agree ∧
      (inst.addUser user).users =
        if user ∈ inst.users then inst.users else inst.users ++ [user] := by
  by_cases member : user ∈ inst.users
  · have same : inst.addUser user = inst := by
      rw [TargetUses.addUser]
      cases index : inst.userIndex with
      | none => simp only [member, if_true]
      | some userIndex =>
        have located := (agree.index userIndex index).found_iff.mpr member
        simp [located]
    rw [same, if_pos member]
    exact ⟨agree, rfl⟩
  · have nodup : (inst.users ++ [user]).Nodup := by
      rw [List.nodup_append_comm]
      exact List.nodup_cons.mpr ⟨member, agree.nodup⟩
    have count : inst.uses + 1 = ((inst.users ++ [user]).length : Int) := by
      rw [agree.count, List.length_append]
      rfl
    rw [TargetUses.addUser, if_neg member]
    cases index : inst.userIndex with
    | none =>
      simp only [member, if_false]
      split
      · refine ⟨⟨nodup, count, ?_⟩, rfl⟩
        intro userIndex built
        cases built
        exact IndexOf.sort nodup
      · refine ⟨⟨nodup, count, ?_⟩, rfl⟩
        intro userIndex built
        cases built
    | some userIndex =>
      have indexOf := agree.index userIndex index
      have missed : SortedVector.found userIndex user = false := by
        rw [← Bool.not_eq_true, indexOf.found_iff]
        exact member
      simp only [missed, Bool.false_eq_true, if_false]
      refine ⟨⟨nodup, count, ?_⟩, (if_neg member).symm⟩
      intro inserted insertedEq
      cases insertedEq
      exact indexOf.insert member

/-- A user that is listed is deleted, and one that is not changes nothing. -/
theorem removeUser (agree : inst.Agree) (user : TargetId) :
    (inst.removeUser user).Agree ∧ (inst.removeUser user).users = inst.users.erase user := by
  by_cases member : user ∈ inst.users
  · have nodup : (inst.users.erase user).Nodup := agree.nodup.erase user
    have count : inst.uses - 1 = ((inst.users.erase user).length : Int) := by
      have positive := List.length_pos_of_mem member
      rw [agree.count, List.length_erase_of_mem member]
      omega
    rw [TargetUses.removeUser]
    cases index : inst.userIndex with
    | none =>
      simp only [member, if_true]
      refine ⟨⟨nodup, count, ?_⟩, trivial⟩
      intro userIndex built
      cases built
    | some userIndex =>
      have indexOf := agree.index userIndex index
      simp only [indexOf.found_iff.mpr member, member, if_true]
      refine ⟨⟨nodup, count, ?_⟩, trivial⟩
      intro erased erasedEq
      cases erasedEq
      exact indexOf.erase member
  · have same : inst.removeUser user = inst := by
      rw [TargetUses.removeUser]
      cases index : inst.userIndex with
      | none => simp only [member, if_false]
      | some userIndex =>
        simp [member]
    rw [same, List.erase_of_not_mem member]
    exact ⟨agree, rfl⟩

/-- Clearing the users of an instruction whose count is zero. -/
theorem clearUsers (count : inst.uses = 0) : inst.clearUsers.Agree := by
  refine ⟨List.nodup_nil, count, ?_⟩
  intro userIndex cleared
  obtain ⟨old, -, rfl⟩ := Option.map_eq_some_iff.mp cleared
  exact ⟨.refl _, List.Pairwise.nil⟩

end Agree

end TargetUses

end DaveCC.Backend
