import DaveCC.Backend.TargetGenerator

/-!
# Users and operands of target instructions

The lists of users record a relation between instructions and their operands. Adding or
removing one user changes one pair of it, whatever the operands are meanwhile. The
relation is right when it is the one that the operands of the live instructions say.
-/

namespace DaveCC.Backend.TargetGenerator

open DaveCC.Container DaveCC.Loop

/-- Two generators agree on everything but the operands, destinations and users. -/
structure SameShape (target other : TargetGenerator) : Prop where
  code : other.code = target.code
  deleted : other.deletedInstructions = target.deletedInstructions
  nextId : other.nextInstructionId = target.nextInstructionId
  lastConstant : other.lastConstant = target.lastConstant
  firstSymbol : other.firstSymbol = target.firstSymbol
  lastSymbol : other.lastSymbol = target.lastSymbol
  symbolIndex : other.symbolIndex = target.symbolIndex
  spans : other.spans = target.spans
  opcode : ∀ id, (other.instructions id).opcode = (target.instructions id).opcode
  symbol : ∀ id, (other.instructions id).symbol = (target.instructions id).symbol
  block : ∀ id, other.blockOf id = target.blockOf id

variable {target other : TargetGenerator} {inst user old new id : TargetId}
  {index : Fin targetMaxOperands}

theorem SameShape.refl (target : TargetGenerator) : target.SameShape target :=
  ⟨rfl, rfl, rfl, rfl, rfl, rfl, rfl, rfl, fun _ => rfl, fun _ => rfl, fun _ => rfl⟩

theorem SameShape.trans {third : TargetGenerator} (first : target.SameShape other)
    (second : other.SameShape third) : target.SameShape third where
  code := second.code.trans first.code
  deleted := second.deleted.trans first.deleted
  nextId := second.nextId.trans first.nextId
  lastConstant := second.lastConstant.trans first.lastConstant
  firstSymbol := second.firstSymbol.trans first.firstSymbol
  lastSymbol := second.lastSymbol.trans first.lastSymbol
  symbolIndex := second.symbolIndex.trans first.symbolIndex
  spans := second.spans.trans first.spans
  opcode := fun id => (second.opcode id).trans (first.opcode id)
  symbol := fun id => (second.symbol id).trans (first.symbol id)
  block := fun id => (second.block id).trans (first.block id)

theorem instructions_modify {change : TargetInstruction → TargetInstruction} :
    (target.modify id change).instructions user =
      if user = id then change (target.instructions id) else target.instructions user := by
  exact Function.update_apply ..

theorem sameShape_modify {change : TargetInstruction → TargetInstruction}
    (opcode : ∀ inst, (change inst).opcode = inst.opcode)
    (symbol : ∀ inst, (change inst).symbol = inst.symbol)
    (block : ∀ inst, (change inst).block = inst.block) :
    target.SameShape (target.modify id change) := by
  refine ⟨rfl, rfl, rfl, rfl, rfl, rfl, rfl, rfl, ?_, ?_, ?_⟩
  · intro other
    rw [instructions_modify]
    split_ifs with here
    · rw [opcode, here]
    · rfl
  · intro other
    rw [instructions_modify]
    split_ifs with here
    · rw [symbol, here]
    · rfl
  · intro other
    rw [blockOf, instructions_modify]
    split_ifs with here
    · rw [block, here, blockOf]
    · rfl

variable {change : TargetUses → TargetUses}

theorem sameShape_modifyUses : target.SameShape (target.modifyUses id change) :=
  sameShape_modify (fun _ => rfl) (fun _ => rfl) (fun _ => rfl)

theorem sameShape_targetAddUser : target.SameShape (target.targetAddUser inst user) :=
  sameShape_modifyUses

theorem sameShape_targetRemoveUser : target.SameShape (target.targetRemoveUser inst user) :=
  sameShape_modifyUses

variable {value : Option TargetId}

theorem sameShape_setOperand : target.SameShape (target.setOperand id index value) :=
  sameShape_modify (fun _ => rfl) (fun _ => rfl) (fun _ => rfl)

theorem sameShape_setDest : target.SameShape (target.setDest id value) :=
  sameShape_modify (fun _ => rfl) (fun _ => rfl) (fun _ => rfl)

theorem toTargetUses_modifyUses :
    ((target.modifyUses id change).instructions user).toTargetUses =
      if user = id then change (target.instructions id).toTargetUses
      else (target.instructions user).toTargetUses := by
  rw [modifyUses, instructions_modify]
  split_ifs <;> rfl

@[simp] theorem operand_modifyUses :
    (target.modifyUses id change).operand user index = target.operand user index := by
  rw [operand, operand, modifyUses, instructions_modify]
  split_ifs with here
  · rw [here]
  · rfl

@[simp] theorem operand_targetAddUser :
    (target.targetAddUser id inst).operand user index = target.operand user index :=
  operand_modifyUses

@[simp] theorem operand_targetRemoveUser :
    (target.targetRemoveUser id inst).operand user index = target.operand user index :=
  operand_modifyUses

theorem operand_setOperand {slot : Fin targetMaxOperands} :
    (target.setOperand id slot value).operand user index =
      if user = id ∧ index = slot then value else target.operand user index := by
  rw [operand, setOperand, instructions_modify]
  by_cases here : user = id
  · subst here
    simp only [if_true, true_and, Function.update_apply]
    rfl
  · simp only [here, if_false, false_and]
    rfl

@[simp] theorem toTargetUses_setOperand :
    ((target.setOperand id index value).instructions user).toTargetUses =
      (target.instructions user).toTargetUses := by
  rw [setOperand, instructions_modify]
  split_ifs with here
  · rw [here]
  · rfl

@[simp] theorem operand_setDest :
    (target.setDest id value).operand user index = target.operand user index := by
  rw [operand, operand, setDest, instructions_modify]
  split_ifs with here
  · rw [here]
  · rfl

@[simp] theorem toTargetUses_setDest :
    ((target.setDest id value).instructions user).toTargetUses =
      (target.instructions user).toTargetUses := by
  rw [setDest, instructions_modify]
  split_ifs with here
  · rw [here]
  · rfl

/-! ## The relation that the users record -/

/-- The lists of users record which instruction uses which, and their indices and counts
agree with them. -/
structure Records (target : TargetGenerator) (uses : TargetId → TargetId → Prop) : Prop where
  mem_users : ∀ inst user, user ∈ target.users inst ↔ uses user inst
  agree : ∀ inst, (target.instructions inst).toTargetUses.Agree

variable {uses : TargetId → TargetId → Prop}

namespace Records

theorem congr {same : TargetId → TargetId → Prop} (records : target.Records uses)
    (iff : ∀ user inst, uses user inst ↔ same user inst) : target.Records same where
  mem_users := fun inst user => (records.mem_users inst user).trans (iff user inst)
  agree := records.agree

/-- The users are all that matters. -/
theorem of_sameUses (records : target.Records uses)
    (same : ∀ id, (other.instructions id).toTargetUses = (target.instructions id).toTargetUses) :
    other.Records uses where
  mem_users := by
    intro inst user
    rw [users, same]
    exact records.mem_users inst user
  agree := by
    intro inst
    rw [same]
    exact records.agree inst

theorem setOperand {value : Option TargetId} (records : target.Records uses) :
    (target.setOperand id index value).Records uses :=
  records.of_sameUses fun _ => toTargetUses_setOperand

theorem setDest {value : Option TargetId} (records : target.Records uses) :
    (target.setDest id value).Records uses :=
  records.of_sameUses fun _ => toTargetUses_setDest

theorem modifyUses {change : TargetUses → TargetUses} (changed : TargetId → Prop)
    (records : target.Records uses)
    (agree : (change (target.instructions inst).toTargetUses).Agree)
    (mem : ∀ user, user ∈ (change (target.instructions inst).toTargetUses).users ↔ changed user) :
    (target.modifyUses inst change).Records
      fun user operand => if operand = inst then changed user else uses user operand where
  mem_users := by
    intro operand user
    rw [users, toTargetUses_modifyUses]
    split_ifs with here
    · exact mem user
    · exact records.mem_users operand user
  agree := by
    intro operand
    rw [toTargetUses_modifyUses]
    split_ifs
    · exact agree
    · exact records.agree operand

theorem targetAddUser (records : target.Records uses) :
    (target.targetAddUser inst user).Records
      fun other operand => uses other operand ∨ (other = user ∧ operand = inst) := by
  obtain ⟨agree, added⟩ := (records.agree inst).addUser user
  have mem : ∀ other, other ∈ ((target.instructions inst).toTargetUses.addUser user).users ↔
      uses other inst ∨ other = user := by
    intro other
    rw [added, ← records.mem_users inst other]
    split_ifs with listed
    · constructor
      · exact .inl
      · rintro (old | rfl)
        · exact old
        · exact listed
    · rw [List.mem_append, List.mem_singleton, users]
  apply (records.modifyUses _ agree mem).congr
  intro other operand
  split_ifs with here
  · simp [here]
  · simp [here]

theorem targetRemoveUser (records : target.Records uses) :
    (target.targetRemoveUser inst user).Records
      fun other operand => uses other operand ∧ ¬(other = user ∧ operand = inst) := by
  have before := records.agree inst
  obtain ⟨agree, removed⟩ := before.removeUser user
  have mem : ∀ other,
      other ∈ ((target.instructions inst).toTargetUses.removeUser user).users ↔
        uses other inst ∧ other ≠ user := by
    intro other
    rw [removed, before.nodup.mem_erase_iff, ← records.mem_users inst other, and_comm, users]
  apply (records.modifyUses _ agree mem).congr
  intro other operand
  split_ifs with here
  · simp [here]
  · simp [here]

end Records

/-- The instruction has been made and has not been deleted. -/
def Live (target : TargetGenerator) (id : TargetId) : Prop :=
  0 < id ∧ id < target.nextInstructionId ∧ id ∉ target.deletedInstructions

instance (target : TargetGenerator) (id : TargetId) : Decidable (target.Live id) :=
  inferInstanceAs (Decidable (0 < id ∧ id < target.nextInstructionId ∧
    id ∉ target.deletedInstructions))

def HasOperand (target : TargetGenerator) (user inst : TargetId) : Prop :=
  ∃ index, target.operand user index = some inst

/-- The users of an instruction are the live instructions that have it for an operand,
and a user is never left with an operand that is not live. -/
structure DefUse (target : TargetGenerator) : Prop where
  records : target.Records fun user inst => target.Live user ∧ target.HasOperand user inst
  retired : ∀ inst, ¬target.Live inst → target.users inst = []

theorem SameShape.live_iff (same : target.SameShape other) : other.Live id ↔ target.Live id := by
  rw [Live, Live, same.nextId, same.deleted]

theorem DefUse.live_operand (defUse : target.DefUse) (live : target.Live user)
    (operand : target.HasOperand user inst) : target.Live inst := by
  by_contra dead
  have listed := (defUse.records.mem_users inst user).mpr ⟨live, operand⟩
  rw [defUse.retired inst dead] at listed
  exact List.not_mem_nil listed

/-- Changes that move pairs between live instructions keep the users right. -/
theorem DefUse.of_records (same : target.SameShape other) (records : other.Records uses)
    (right : ∀ user inst, uses user inst ↔ target.Live user ∧ other.HasOperand user inst)
    (retired : ∀ user inst, uses user inst → target.Live inst) : other.DefUse where
  records := by
    apply records.congr
    intro user inst
    rw [same.live_iff]
    exact right user inst
  retired := by
    intro inst dead
    rw [same.live_iff] at dead
    apply List.eq_nil_iff_forall_not_mem.mpr
    intro user listed
    exact dead (retired user inst ((records.mem_users inst user).mp listed))

end DaveCC.Backend.TargetGenerator
