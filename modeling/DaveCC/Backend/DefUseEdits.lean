import DaveCC.Backend.DefUse

/-!
# Edits of users and operands

Each operation on the users and the operands of instructions keeps the users right when
it does not leave a use behind: an operand that another slot still holds keeps its user.
-/

namespace DaveCC.Backend.TargetGenerator

open DaveCC.Container DaveCC.Loop

variable {target other : TargetGenerator} {inst user old new id label : TargetId}
  {index : Fin targetMaxOperands} {value : Option TargetId}

theorem hasOperand_congr
    (same : ∀ user index, other.operand user index = target.operand user index) :
    other.HasOperand user inst ↔ target.HasOperand user inst := by
  simp only [HasOperand, same]

@[simp] theorem hasOperand_targetAddUser :
    (target.targetAddUser id new).HasOperand user inst ↔ target.HasOperand user inst :=
  hasOperand_congr fun _ _ => operand_targetAddUser

@[simp] theorem hasOperand_targetRemoveUser :
    (target.targetRemoveUser id new).HasOperand user inst ↔ target.HasOperand user inst :=
  hasOperand_congr fun _ _ => operand_targetRemoveUser

/-- A slot of the instruction other than `index` holds the operand. -/
def HoldsElsewhere (target : TargetGenerator) (inst : TargetId)
    (index : Fin targetMaxOperands) (operand : TargetId) : Prop :=
  ∃ slot ≠ index, target.operand inst slot = some operand

theorem hasOperand_iff_elsewhere (index : Fin targetMaxOperands) :
    target.HasOperand inst old ↔
      target.operand inst index = some old ∨ target.HoldsElsewhere inst index old := by
  constructor
  · rintro ⟨slot, held⟩
    by_cases here : slot = index
    · exact .inl (here ▸ held)
    · exact .inr ⟨slot, here, held⟩
  · rintro (held | ⟨slot, -, held⟩)
    · exact ⟨index, held⟩
    · exact ⟨slot, held⟩

theorem hasOperand_setOperand_self :
    (target.setOperand inst index value).HasOperand inst old ↔
      value = some old ∨ target.HoldsElsewhere inst index old := by
  rw [hasOperand_iff_elsewhere index, operand_setOperand, if_pos ⟨rfl, rfl⟩]
  apply or_congr_right
  constructor
  · rintro ⟨slot, apart, held⟩
    rw [operand_setOperand, if_neg (by simp [apart])] at held
    exact ⟨slot, apart, held⟩
  · rintro ⟨slot, apart, held⟩
    refine ⟨slot, apart, ?_⟩
    rw [operand_setOperand, if_neg (by simp [apart])]
    exact held

theorem hasOperand_setOperand_ne (apart : user ≠ inst) :
    (target.setOperand inst index value).HasOperand user old ↔
      target.HasOperand user old := by
  simp [HasOperand, operand_setOperand, apart]

theorem DefUse.mem_users (defUse : target.DefUse) :
    user ∈ target.users inst ↔ target.Live user ∧ target.HasOperand user inst :=
  defUse.records.mem_users inst user

/-- An instruction is added to the users of its own operand. -/
theorem DefUse.targetAddUser (defUse : target.DefUse) (live : target.Live user)
    (operand : target.HasOperand user inst) : (target.targetAddUser inst user).DefUse := by
  apply DefUse.of_records sameShape_targetAddUser defUse.records.targetAddUser
  · intro other held
    rw [hasOperand_targetAddUser]
    constructor
    · rintro (before | ⟨rfl, rfl⟩)
      · exact before
      · exact ⟨live, operand⟩
    · exact .inl
  · rintro other held (⟨otherLive, has⟩ | ⟨rfl, rfl⟩)
    · exact defUse.live_operand otherLive has
    · exact defUse.live_operand live operand

/-- An instruction is removed from the users of what is not its operand. -/
theorem DefUse.targetRemoveUser (defUse : target.DefUse)
    (absent : ¬(target.Live user ∧ target.HasOperand user inst)) :
    (target.targetRemoveUser inst user).DefUse := by
  apply DefUse.of_records sameShape_targetRemoveUser defUse.records.targetRemoveUser
  · intro other held
    rw [hasOperand_targetRemoveUser]
    constructor
    · exact And.left
    · intro before
      refine ⟨before, ?_⟩
      rintro ⟨rfl, rfl⟩
      exact absent before
  · rintro other held ⟨⟨otherLive, has⟩, -⟩
    exact defUse.live_operand otherLive has

/-- A slot is filled, and what it held is still held or was nothing. -/
theorem DefUse.targetApplyFixup (defUse : target.DefUse) (live : target.Live inst)
    (labelLive : target.Live label) (kept : ∀ old, target.operand inst index = some old → old =
      label ∨ target.HoldsElsewhere inst index old) :
    (target.targetApplyFixup inst index label).DefUse := by
  have same : target.SameShape (target.targetApplyFixup inst index label) := by
    exact sameShape_setOperand.trans sameShape_targetAddUser
  apply DefUse.of_records same defUse.records.setOperand.targetAddUser
  · intro other held
    rw [TargetGenerator.targetApplyFixup, hasOperand_targetAddUser]
    by_cases here : other = inst
    · subst here
      rw [hasOperand_setOperand_self, hasOperand_iff_elsewhere index, Option.some.injEq]
      constructor
      · rintro (⟨-, slot | elsewhere⟩ | ⟨-, rfl⟩)
        · exact ⟨live, (kept held slot).imp_left Eq.symm⟩
        · exact ⟨live, .inr elsewhere⟩
        · exact ⟨live, .inl rfl⟩
      · rintro ⟨-, rfl | elsewhere⟩
        · exact .inr ⟨rfl, rfl⟩
        · exact .inl ⟨live, .inr elsewhere⟩
    · rw [hasOperand_setOperand_ne here]
      simp [here]
  · rintro other held (⟨otherLive, has⟩ | ⟨rfl, rfl⟩)
    · exact defUse.live_operand otherLive has
    · exact labelLive

theorem sameShape_targetReplaceOperand
    (returns : target.targetReplaceOperand inst index value = some other) :
    target.SameShape other := by
  rw [targetReplaceOperand] at returns
  split_ifs at returns
  · cases returns
    exact .refl target
  · split at returns
    · cases returns
    · split at returns
      · cases returns
        exact sameShape_targetRemoveUser.trans sameShape_setOperand
      · cases returns
        exact (sameShape_targetRemoveUser.trans sameShape_setOperand).trans sameShape_targetAddUser

/-- An operand is replaced that no other slot of the instruction holds. -/
theorem DefUse.targetReplaceOperand (defUse : target.DefUse) (live : target.Live inst)
    (valueLive : ∀ new, value = some new → target.Live new)
    (only : ∀ old, target.operand inst index = some old →
      value ≠ some old → ¬target.HoldsElsewhere inst index old)
    (returns : target.targetReplaceOperand inst index value = some other) : other.DefUse := by
  have same := sameShape_targetReplaceOperand returns
  rw [TargetGenerator.targetReplaceOperand] at returns
  split_ifs at returns with unchanged
  · cases returns
    exact defUse
  · split at returns
    · cases returns
    · next old slot =>
        have changes : value ≠ some old := fun equal => unchanged (slot.trans equal.symm)
        have elsewhere := only old slot changes
        have removed : ((target.targetRemoveUser old inst).setOperand inst index value).Records _ :=
          defUse.records.targetRemoveUser.setOperand
        -- What the users of `old` and of the other operands record without the slot.
        have without : ∀ other held,
            ((target.Live other ∧ target.HasOperand other held) ∧ ¬(other = inst ∧ held = old)) ↔
              target.Live other ∧
                (if other = inst then target.HoldsElsewhere inst index held
                  else target.HasOperand other held) := by
          intro other held
          split_ifs with here
          · subst here
            rw [hasOperand_iff_elsewhere index, slot, Option.some.injEq]
            constructor
            · rintro ⟨⟨otherLive, rfl | held⟩, apart⟩
              · exact absurd ⟨rfl, rfl⟩ apart
              · exact ⟨otherLive, held⟩
            · rintro ⟨otherLive, held⟩
              refine ⟨⟨otherLive, .inr held⟩, ?_⟩
              rintro ⟨-, rfl⟩
              exact elsewhere held
          · simp [here]
        split at returns
        · cases returns
          apply DefUse.of_records same removed
          · intro other held
            rw [without]
            by_cases here : other = inst
            · subst here
              rw [if_pos rfl, hasOperand_setOperand_self]
              simp [HoldsElsewhere]
            · rw [if_neg here, hasOperand_setOperand_ne here, hasOperand_targetRemoveUser]
          · rintro other held ⟨⟨otherLive, has⟩, -⟩
            exact defUse.live_operand otherLive has
        · next new =>
            cases returns
            apply DefUse.of_records same removed.targetAddUser
            · intro other held
              rw [without, hasOperand_targetAddUser]
              by_cases here : other = inst
              · subst here
                rw [if_pos rfl, hasOperand_setOperand_self, Option.some.injEq]
                simp only [HoldsElsewhere, operand_targetRemoveUser, true_and]
                constructor
                · rintro (⟨-, has⟩ | rfl)
                  · exact ⟨live, .inr has⟩
                  · exact ⟨live, .inl rfl⟩
                · rintro ⟨-, rfl | has⟩
                  · exact .inr rfl
                  · exact .inl ⟨live, has⟩
              · rw [if_neg here, hasOperand_setOperand_ne here, hasOperand_targetRemoveUser]
                simp [here]
            · rintro other held (⟨⟨otherLive, has⟩, -⟩ | ⟨rfl, rfl⟩)
              · exact defUse.live_operand otherLive has
              · exact valueLive held rfl

/-! ## The users of all operands of an instruction -/

/-- Only the users change, and they record the relation. -/
structure Rerecords (target other : TargetGenerator) (uses : TargetId → TargetId → Prop) :
    Prop where
  same : target.SameShape other
  operands : ∀ user index, other.operand user index = target.operand user index
  records : other.Records uses

variable {uses : TargetId → TargetId → Prop}

theorem Rerecords.congr {changed : TargetId → TargetId → Prop}
    (rerecords : target.Rerecords other uses)
    (iff : ∀ user inst, uses user inst ↔ changed user inst) : target.Rerecords other changed where
  same := rerecords.same
  operands := rerecords.operands
  records := rerecords.records.congr iff

theorem Records.rerecords (records : target.Records uses) : target.Rerecords target uses :=
  ⟨.refl target, fun _ _ => rfl, records⟩

/-- The user is the instruction, and some of its slots hold the operand. -/
def UsedFrom (target : TargetGenerator) (inst : TargetId)
    (slots : List (Fin targetMaxOperands)) (user operand : TargetId) : Prop :=
  user = inst ∧ ∃ index ∈ slots, target.operand inst index = some operand

variable {operand : TargetId}

theorem not_usedFrom_nil : ¬target.UsedFrom inst [] user operand := by
  simp [UsedFrom]

theorem usedFrom_concat {slots : List (Fin targetMaxOperands)} :
    target.UsedFrom inst (slots ++ [index]) user operand ↔
      target.UsedFrom inst slots user operand ∨
        (user = inst ∧ target.operand inst index = some operand) := by
  rw [UsedFrom, UsedFrom, ← and_or_left]
  simp [or_and_right, exists_or]

theorem usedFrom_finRange :
    target.UsedFrom inst (List.finRange targetMaxOperands) user operand ↔
      user = inst ∧ target.HasOperand inst operand := by
  simp [UsedFrom, HasOperand]

/-- The users of every operand of an instruction change. -/
theorem Records.foldl_operands {change : TargetGenerator → TargetId → TargetGenerator}
    (edit : Prop → Prop → Prop) (records : target.Records uses)
    (changes : ∀ {target : TargetGenerator} {uses} held, target.Records uses →
      target.Rerecords (change target held) fun user operand => edit (uses user operand) (user =
      inst ∧ operand = held)) (nothing : ∀ before, edit before False ↔ before)
    (twice : ∀ before first second, edit (edit before first) second ↔
      edit before (first ∨ second)) :
    target.Rerecords
      ((List.finRange targetMaxOperands).foldl (fun done index =>
        match done.operand inst index with
        | none => done
        | some held => change done held) target)
      fun user operand => edit (uses user operand) (user = inst ∧ target.HasOperand inst operand) := by
  refine Rerecords.congr (foldl_induct
    (fun front done => target.Rerecords done fun user operand =>
      edit (uses user operand) (target.UsedFrom inst front user operand)) ?_ ?_)
    fun user operand => by rw [usedFrom_finRange]
  · rintro front index back done - rerecords
    simp only [rerecords.operands]
    cases slot : target.operand inst index with
    | none =>
      apply rerecords.congr
      intro user operand
      simp [usedFrom_concat, slot]
    | some held =>
      have next := changes held rerecords.records
      refine ⟨rerecords.same.trans next.same, ?_, next.records.congr ?_⟩
      · intro user index
        rw [next.operands, rerecords.operands]
      · intro user operand
        rw [twice, usedFrom_concat, slot, Option.some.injEq, eq_comm (a := held)]
  · exact records.rerecords.congr (by simp [not_usedFrom_nil, nothing])

/-- Every operand of an instruction gains it as a user. -/
theorem Records.targetUpdateOperandUsers (records : target.Records uses) :
    target.Rerecords (target.targetUpdateOperandUsers inst)
      fun user operand => uses user operand ∨ (user = inst ∧ target.HasOperand inst operand) :=
  records.foldl_operands Or
    (fun _ records =>
      ⟨sameShape_targetAddUser, fun _ _ => operand_targetAddUser, records.targetAddUser⟩)
    (by simp) (by simp [or_assoc])

/-- Every operand of an instruction loses it as a user. -/
theorem Records.dropOperandUsers (records : target.Records uses) :
    target.Rerecords (target.dropOperandUsers inst)
      fun user operand =>
        uses user operand ∧ ¬(user = inst ∧ target.HasOperand inst operand) :=
  records.foldl_operands (fun before used => before ∧ ¬used)
    (fun _ records =>
      ⟨sameShape_targetRemoveUser, fun _ _ => operand_targetRemoveUser, records.targetRemoveUser⟩)
    (by simp) (by simp [and_assoc])

/-- Ids are given out in order. -/
structure Numbered (target : TargetGenerator) : Prop where
  positive : 0 < target.nextInstructionId
  deleted : ∀ id ∈ target.deletedInstructions, id < target.nextInstructionId

theorem SameShape.numbered (same : target.SameShape other) (numbered : target.Numbered) :
    other.Numbered where
  positive := by
    rw [same.nextId]
    exact numbered.positive
  deleted := by
    rw [same.nextId, same.deleted]
    exact numbered.deleted

theorem not_live_next : ¬target.Live target.nextInstructionId :=
  fun live => Nat.lt_irrefl _ live.2.1

variable {init : TargetInstruction}

theorem Numbered.live_targetInitInstruction (numbered : target.Numbered) :
    (target.targetInitInstruction init).Live id ↔
      target.Live id ∨ id = target.nextInstructionId := by
  constructor
  · rintro ⟨positive, less, kept⟩
    rcases Nat.lt_or_eq_of_le (Nat.le_of_lt_succ less) with older | same
    · exact .inl ⟨positive, older, kept⟩
    · exact .inr same
  · rintro (⟨positive, older, kept⟩ | rfl)
    · exact ⟨positive, Nat.lt_succ_of_lt older, kept⟩
    · refine ⟨numbered.positive, Nat.lt_succ_self _, ?_⟩
      intro deleted
      exact Nat.lt_irrefl _ (numbered.deleted _ deleted)

theorem instructions_targetInitInstruction :
    (target.targetInitInstruction init).instructions id =
      if id = target.nextInstructionId then init else target.instructions id := by
  exact Function.update_apply ..

theorem DefUse.records_targetInitInstruction (defUse : target.DefUse)
    (empty : init.toTargetUses = {}) :
    (target.targetInitInstruction init).Records
      fun user inst => target.Live user ∧ target.HasOperand user inst where
  mem_users := by
    intro inst user
    rw [users, instructions_targetInitInstruction]
    split_ifs with here
    · subst here
      rw [← defUse.mem_users, defUse.retired _ not_live_next, empty]
    · exact defUse.mem_users
  agree := by
    intro inst
    rw [instructions_targetInitInstruction]
    split_ifs
    · rw [empty]
      exact TargetUses.agree_empty
    · exact defUse.records.agree inst

theorem hasOperand_targetInitInstruction :
    (target.targetInitInstruction init).HasOperand user inst ↔
      if user = target.nextInstructionId then ∃ index, init.operand index = some inst
      else target.HasOperand user inst := by
  simp only [HasOperand, operand, instructions_targetInitInstruction]
  split_ifs <;> rfl

theorem DefUse.targetInitInstruction (defUse : target.DefUse) (numbered : target.Numbered)
    (empty : init.toTargetUses = {}) (bare : ∀ index, init.operand index = none) :
    (target.targetInitInstruction init).DefUse where
  records := by
    apply (defUse.records_targetInitInstruction empty).congr
    intro user inst
    rw [numbered.live_targetInitInstruction, hasOperand_targetInitInstruction]
    split_ifs with here
    · subst here
      simp [not_live_next, bare]
    · simp [here]
  retired := by
    intro inst dead
    rw [numbered.live_targetInitInstruction, not_or] at dead
    rw [users, instructions_targetInitInstruction, if_neg dead.2]
    exact defUse.retired inst dead.1

/-- A new instruction whose operands are live. -/
theorem DefUse.targetNewInstruction (defUse : target.DefUse) (numbered : target.Numbered)
    {opcode : TargetOpcode} {operand : Fin targetMaxOperands → Option TargetId}
    (operandLive : ∀ index inst, operand index = some inst → target.Live inst) :
    (target.targetNewInstruction opcode operand).DefUse := by
  let init : TargetInstruction := { opcode := opcode, operand := operand }
  have recorded := defUse.records_targetInitInstruction (show init.toTargetUses = {} from rfl)
  have updated : (target.targetInitInstruction init).Rerecords
      (target.targetNewInstruction opcode operand) _ := recorded.targetUpdateOperandUsers
  have own (held : TargetId) :
      (target.targetInitInstruction init).HasOperand target.nextInstructionId held ↔
        ∃ index, operand index = some held := by
    rw [hasOperand_targetInitInstruction, if_pos rfl]
  apply DefUse.of_records updated.same updated.records
  · intro user held
    rw [hasOperand_congr updated.operands, numbered.live_targetInitInstruction]
    by_cases here : user = target.nextInstructionId
    · subst here
      simp [not_live_next]
    · have kept : (target.targetInitInstruction init).HasOperand user held ↔
          target.HasOperand user held := by
        rw [hasOperand_targetInitInstruction, if_neg here]
      rw [kept]
      simp [here]
  · rintro user held (⟨live, has⟩ | ⟨rfl, has⟩)
    · rw [numbered.live_targetInitInstruction]
      exact .inl (defUse.live_operand live has)
    · obtain ⟨index, held⟩ := (own held).mp has
      rw [numbered.live_targetInitInstruction]
      exact .inl (operandLive index _ held)

end DaveCC.Backend.TargetGenerator
