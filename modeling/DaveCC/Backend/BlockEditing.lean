import DaveCC.Backend.IRRepresentation

/-!
# Runs of editing operations

Every operation keeps the representation invariant when its instruction belongs to
the block it is removed through and is not replaced as the only instruction of its
block. A block whose only instruction is replaced ends up with ends in its
neighbours.
-/

namespace DaveCC.Backend.IRGraph

open DaveCC.Container DaveCC.Graph

/-- The node is an instruction of the code list. -/
def Listed (graph : IRGraph) (id : NodeId) : Prop :=
  ∃ order, graph.code.Represents order ∧ id ∈ order

/-- Whether the instruction is an end of the block. -/
def IsEnd (graph : IRGraph) (block : BlockId) (inst : NodeId) : Prop :=
  (graph.spans block).code = some inst ∨ (graph.spans block).endCode = some inst

/-- The arguments of an operation are what its callers pass: fresh memory for a new
node, instructions of the list, and distinct ones where two are named. -/
def Edit.Permitted (graph : IRGraph) : Edit → Prop
  | .newIR id _ => graph.nodes id = none
  | .irAddInput _ _ _ | .irReplaceInput _ _ _ | .irRemoveInput _ _ => True
  | .irRemoveNode id => graph.Listed id ∧ graph.blockOf id = none
  | .generatorReplaceInstruction _ new => (graph.nodes new).isSome
  | .basicBlockRemoveInstruction _ inst => graph.Listed inst
  | .basicBlockReplaceInstruction _ old new => graph.Listed old ∧ (graph.nodes new).isSome
  | .basicBlockMoveInstructionBefore inst pos | .basicBlockMoveInstructionAfter inst pos =>
    graph.Listed inst ∧ graph.Listed pos ∧ inst ≠ pos
  | .basicBlockEmitBefore block inst pos =>
    (graph.nodes inst).isSome ∧ ¬graph.Listed inst ∧ graph.Listed pos ∧
      graph.blockOf pos = some block
  | .basicBlockInsertPhi _ _ phi => graph.nodes phi = none

/-- An instruction is removed through its own block, unless it is no end of it, and
the only instruction of a block is not replaced, unless it is the only one at all. -/
def Edit.Safe (graph : IRGraph) : Edit → Prop
  | .basicBlockRemoveInstruction block inst =>
    ∀ own, graph.IsEnd own inst → own = block
  | .basicBlockReplaceInstruction block old _ =>
    (∀ own, graph.IsEnd own old → own = block) ∧
      ((graph.spans block).code = some old → (graph.spans block).endCode = some old →
        graph.code.length = 1)
  | _ => True

/-- One permitted and safe operation that returns. -/
def Edits (before after : IRGraph) : Prop :=
  ∃ (fuel : Nat) (edit : Edit), edit.Permitted before ∧ edit.Safe before ∧ edit.apply fuel before = some after

variable {graph final : IRGraph} {order front back : List NodeId} {id inst pos : NodeId}
  {block : BlockId}

theorem RepresentedBy.mem_of_listed (represented : graph.RepresentedBy order)
    (listed : graph.Listed id) : id ∈ order := by
  obtain ⟨other, represents, mem⟩ := listed
  rw [represented.list.unique represents]
  exact mem

theorem RepresentedBy.blockOf_of_isEnd (represented : graph.RepresentedBy order)
    (isEnd : graph.IsEnd block inst) : graph.blockOf inst = some block := by
  rcases isEnd with code | endCode
  · exact ((represented.spans block).mem_of_code code).2
  · exact ((represented.spans block).mem_of_endCode endCode).2

/-- Moving the ends of one block is moving those of every block, when no other block
has the instruction for an end. -/
theorem spans_setSpan_leaveSpan (own : ∀ other, graph.IsEnd other inst → other = block)
    (other : BlockId) :
    (graph.setSpan block (graph.leaveSpan (graph.spans block) inst)).spans other =
      graph.leaveSpan (graph.spans other) inst := by
  by_cases same : other = block
  · subst same
    simp [setSpan]
  · have codeNe : (graph.spans other).code ≠ some inst := fun code => same (own other (.inl code))
    have endNe : (graph.spans other).endCode ≠ some inst :=
      fun endCode => same (own other (.inr endCode))
    rw [leaveSpan_of_apart codeNe endNe]
    simp [setSpan, same]

theorem setSpan_self : graph.setSpan block (graph.spans block) = graph := by
  rw [setSpan, Function.update_eq_self]

theorem setSpan_extendBefore :
    (if (graph.spans block).code = some pos then
        graph.setSpan block { graph.spans block with code := some inst }
      else graph) =
      graph.setSpan block ((graph.spans block).extendBefore inst pos) := by
  rw [CodeSpan.extendBefore]
  split
  · rfl
  · exact setSpan_self.symm

theorem setSpan_extendAfter :
    (if (graph.spans block).endCode = some pos then
        graph.setSpan block { graph.spans block with endCode := some inst }
      else graph) =
      graph.setSpan block ((graph.spans block).extendAfter inst pos) := by
  rw [CodeSpan.extendAfter]
  split
  · rfl
  · exact setSpan_self.symm

/-- Moving the ends of the block of `pos` is moving those of every block. -/
theorem spans_setSpan_extendBefore (own : ∀ other, graph.IsEnd other pos → other = block)
    (other : BlockId) :
    (graph.setSpan block ((graph.spans block).extendBefore inst pos)).spans other =
      (graph.spans other).extendBefore inst pos := by
  by_cases same : other = block
  · subst same
    simp [setSpan]
  · have codeNe : (graph.spans other).code ≠ some pos := fun code => same (own other (.inl code))
    simp [setSpan, same, CodeSpan.extendBefore, codeNe]

theorem spans_setSpan_extendAfter (own : ∀ other, graph.IsEnd other pos → other = block)
    (other : BlockId) :
    (graph.setSpan block ((graph.spans block).extendAfter inst pos)).spans other =
      (graph.spans other).extendAfter inst pos := by
  by_cases same : other = block
  · subst same
    simp [setSpan]
  · have endNe : (graph.spans other).endCode ≠ some pos :=
      fun endCode => same (own other (.inr endCode))
    simp [setSpan, same, CodeSpan.extendAfter, endNe]

theorem blockOf_joined {target : NodeId} (apart : target ≠ inst) :
    (graph.modify inst fun node => { node with block := some block }).blockOf target =
      graph.blockOf target := by
  simp [modify, blockOf, apart]

theorem blockOf_joined_self (allocated : (graph.nodes inst).isSome) :
    (graph.modify inst fun node => { node with block := some block }).blockOf inst =
      some block := by
  obtain ⟨node, nodeEq⟩ := Option.isSome_iff_exists.mp allocated
  simp [modify, blockOf, nodeEq]

/-- What `GeneratorRemoveInstruction` leaves of the nodes. -/
theorem RepresentedBy.generatorRemoveInstruction {other : IRGraph}
    (represented : graph.RepresentedBy (front ++ inst :: back))
    (same : other.SameList { graph with spans := other.spans })
    (inverse : EdgeInverse other.inputs other.outputs)
    (spans : ∀ block, other.spans block = graph.leaveSpan (graph.spans block) inst) :
    (other.generatorRemoveInstruction inst).RepresentedBy (front ++ back) := by
  let unlinked : IRGraph := { other with code := other.code.deleteElement inst }
  have sameNodes : (unlinked.irRemoveNode inst).SameList unlinked := sameList_irRemoveNode inst
  have final : other.generatorRemoveInstruction inst =
      (unlinked.irRemoveNode inst).release inst := rfl
  rw [final]
  apply represented.removed
  · rw [release, sameNodes.code, ← same.code]
  · intro block
    rw [release, sameNodes.spans, ← spans]
  · exact inverse_irRemoveNode (show EdgeInverse unlinked.inputs unlinked.outputs from inverse) inst
  · exact Function.update_self ..
  · intro target apart
    rw [blockOf_release apart, sameNodes.blockOf]
    exact congrFun same.blockOf target
  · intro target apart
    rw [nodes_release apart, sameNodes.allocated]
    exact same.allocated target

theorem RepresentedBy.basicBlockRemoveInstruction
    (represented : graph.RepresentedBy (front ++ inst :: back))
    (own : ∀ other, graph.IsEnd other inst → other = block) :
    (graph.basicBlockRemoveInstruction block inst).RepresentedBy (front ++ back) := by
  apply represented.generatorRemoveInstruction
  · exact ⟨rfl, rfl, rfl, fun _ => rfl⟩
  · exact represented.inverse
  · exact spans_setSpan_leaveSpan own

theorem RepresentedBy.basicBlockReplaceInstruction {old new : NodeId}
    (represented : graph.RepresentedBy (front ++ old :: back))
    (allocated : (graph.nodes new).isSome) (own : ∀ other, graph.IsEnd other old → other = block)
      (several : (graph.spans block).code = some old → (graph.spans block).endCode = some old →
      graph.code.length = 1)
    (returns : graph.basicBlockReplaceInstruction block old new = some final) :
    final.RepresentedBy (front ++ back) := by
  simp only [IRGraph.basicBlockReplaceInstruction, Option.bind_eq_bind,
    Option.bind_eq_some_iff] at returns
  obtain ⟨replaced, returns, finalEq⟩ := returns
  cases finalEq
  obtain ⟨same, inverse⟩ := generatorReplaceInstruction_spec
    (show EdgeInverse (graph.setSpan block _).inputs (graph.setSpan block _).outputs from
      represented.inverse) allocated returns
  apply represented.generatorRemoveInstruction
  · exact ⟨same.code, rfl, same.blockOf, same.allocated⟩
  · exact inverse
  · intro other
    have codeEq : replaced.code = graph.code := same.code
    have leaves (span : CodeSpan) : replaced.leaveSpan span old = graph.leaveSpan span old := by
      rw [leaveSpan, leaveSpan, codeEq]
    simp only [setSpan, same.spans, leaves]
    by_cases isBlock : other = block
    · subst isBlock
      rw [Function.update_self, Function.update_self]
      apply leaveSpan_replaceSpan represented.list
      intro code endCode
      have single := several code endCode
      rw [represented.list.length, List.length_append, List.length_cons] at single
      exact ⟨List.length_eq_zero_iff.mp (by omega), List.length_eq_zero_iff.mp (by omega)⟩
    · rw [Function.update_of_ne isBlock, Function.update_of_ne isBlock, leaveSpan_of_apart]
      · intro code
        exact isBlock (own other (.inl code))
      · intro endCode
        exact isBlock (own other (.inr endCode))

variable {fuel : Nat}

theorem RepresentedBy.irRemoveNode (represented : graph.RepresentedBy (front ++ inst :: back))
    (free : graph.blockOf inst = none)
    (returns : (Edit.irRemoveNode inst).apply fuel graph = some final) :
    final.RepresentedBy (front ++ back) := by
  cases returns
  have same : (graph.irRemoveNode inst).SameList graph := sameList_irRemoveNode inst
  apply represented.removed
  · exact congrArg (·.deleteElement inst) same.code
  · intro block
    have notEnd : ¬graph.IsEnd block inst := by
      intro isEnd
      have owned := represented.blockOf_of_isEnd isEnd
      rw [free] at owned
      cases owned
    obtain ⟨codeNe, endNe⟩ := not_or.mp notEnd
    rw [leaveSpan_of_apart codeNe endNe]
    exact congrFun same.spans block
  · exact inverse_irRemoveNode represented.inverse inst
  · exact Function.update_self ..
  · intro target apart
    exact (blockOf_release apart).trans (congrFun same.blockOf target)
  · intro target apart
    exact (congrArg Option.isSome (nodes_release apart)).trans (same.allocated target)

/-! ## Moving -/

/-- The ends that are still in place name the blocks of their instructions. -/
theorem RepresentedApart.own (represented : graph.RepresentedApart order inst)
    (owned : graph.blockOf pos = some block) : ∀ other, graph.IsEnd other pos → other = block := by
  intro other isEnd
  have ownedToo : graph.blockOf pos = some other := by
    rcases isEnd with code | endCode
    · exact ((represented.spans other).mem_of_code code).2
    · exact ((represented.spans other).mem_of_endCode endCode).2
  rw [owned] at ownedToo
  exact (Option.some.inj ownedToo).symm

section

variable (represented : graph.RepresentedBy order) (instMem : inst ∈ order) (posMem : pos ∈ order)
  (apart : inst ≠ pos)

include represented instMem posMem apart

/-- An instruction that is about to be moved has left the list and its block. -/
theorem RepresentedBy.leaves {source : BlockId} (sourceEq : graph.blockOf inst = some source) :
    ∃ front back,
      ({ graph.setSpan source (graph.leaveSpan (graph.spans source) inst) with
          code := graph.code.deleteElement inst } : IRGraph).RepresentedApart
        (front ++ pos :: back) inst := by
  obtain ⟨front, back, rfl⟩ := List.append_of_mem instMem
  have own : ∀ other, graph.IsEnd other inst → other = source := by
    intro other isEnd
    have owned := represented.blockOf_of_isEnd isEnd
    rw [sourceEq] at owned
    exact (Option.some.inj owned).symm
  have left : ({ graph.setSpan source (graph.leaveSpan (graph.spans source) inst) with
      code := graph.code.deleteElement inst } : IRGraph).RepresentedApart (front ++ back) inst :=
    represented.left rfl (spans_setSpan_leaveSpan own) rfl
  have posRest : pos ∈ front ++ back := by
    simp only [List.mem_append, List.mem_cons] at posMem ⊢
    exact posMem.imp_right fun later => later.resolve_left (Ne.symm apart)
  obtain ⟨front', back', split⟩ := List.append_of_mem posRest
  rw [split] at left
  exact ⟨front', back', left⟩

theorem RepresentedBy.basicBlockMoveInstructionBefore
    (returns : graph.basicBlockMoveInstructionBefore inst pos = some final) :
    final.Represented := by
  simp only [IRGraph.basicBlockMoveInstructionBefore, Option.bind_eq_bind,
    Option.bind_eq_some_iff, setSpan_extendBefore] at returns
  obtain ⟨source, sourceEq, target, targetEq, finalEq⟩ := returns
  cases finalEq
  have allocated := represented.allocated inst instMem
  obtain ⟨front, back, left⟩ := represented.leaves instMem posMem apart sourceEq
  refine ⟨front ++ inst :: pos :: back, left.insertedBefore allocated rfl ?_ ?_ ?_ ?_ ?_ ?_⟩
  · exact inputs_modify_of_keeps fun _ => rfl
  · exact outputs_modify_of_keeps fun _ => rfl
  · exact isSome_modify
  · intro other notInst
    exact blockOf_joined notInst
  · exact (blockOf_joined_self allocated).trans targetEq.symm
  · exact spans_setSpan_extendBefore (left.own targetEq)

theorem RepresentedBy.basicBlockMoveInstructionAfter
    (returns : graph.basicBlockMoveInstructionAfter inst pos = some final) : final.Represented := by
  simp only [IRGraph.basicBlockMoveInstructionAfter, Option.bind_eq_bind,
    Option.bind_eq_some_iff, setSpan_extendAfter] at returns
  obtain ⟨source, sourceEq, target, targetEq, finalEq⟩ := returns
  cases finalEq
  have allocated := represented.allocated inst instMem
  obtain ⟨front, back, left⟩ := represented.leaves instMem posMem apart sourceEq
  refine ⟨front ++ pos :: inst :: back, left.insertedAfter allocated rfl ?_ ?_ ?_ ?_ ?_ ?_⟩
  · exact inputs_modify_of_keeps fun _ => rfl
  · exact outputs_modify_of_keeps fun _ => rfl
  · exact isSome_modify
  · intro other notInst
    exact blockOf_joined notInst
  · exact (blockOf_joined_self allocated).trans targetEq.symm
  · exact spans_setSpan_extendAfter (left.own targetEq)

end

theorem irInList_of_detached (detached : graph.code.Detached inst) :
    graph.irInList inst = false := by
  rw [irInList, detached.1, detached.2]
  rfl

theorem RepresentedBy.basicBlockEmitBefore (represented : graph.RepresentedBy order)
    (allocated : (graph.nodes inst).isSome) (outside : inst ∉ order) (posMem : pos ∈ order)
    (owned : graph.blockOf pos = some block) :
    (graph.basicBlockEmitBefore block inst pos).Represented := by
  obtain ⟨front, back, rfl⟩ := List.append_of_mem posMem
  have detached := represented.detached inst outside allocated
  have apart := represented.apart outside
  have notInList :
      (graph.setSpan block ((graph.spans block).extendBefore inst pos)).irInList inst = false :=
    irInList_of_detached detached
  simp only [IRGraph.basicBlockEmitBefore, setSpan_extendBefore, generatorEmitBefore, notInList,
    Bool.false_eq_true, if_false]
  refine ⟨front ++ inst :: pos :: back, apart.insertedBefore allocated rfl ?_ ?_ ?_ ?_ ?_ ?_⟩
  · exact inputs_modify_of_keeps fun _ => rfl
  · exact outputs_modify_of_keeps fun _ => rfl
  · exact isSome_modify
  · intro other notInst
    exact blockOf_joined notInst
  · exact (blockOf_joined_self allocated).trans owned.symm
  · exact spans_setSpan_extendBefore (apart.own owned)

theorem generatorEmitBefore_setSpan (span : CodeSpan) :
    (graph.setSpan block span).generatorEmitBefore inst pos =
      (graph.generatorEmitBefore inst pos).setSpan block span := by
  cases listed : graph.irInList inst with
  | false => simp only [generatorEmitBefore, setSpan, irInList] at listed ⊢; simp [listed]
  | true => simp only [generatorEmitBefore, setSpan, irInList] at listed ⊢; simp [listed]

theorem spans_generatorEmitBefore :
    (graph.generatorEmitBefore inst pos).spans = graph.spans := by
  rw [generatorEmitBefore]
  split <;> rfl

theorem RepresentedBy.basicBlockInsertPhi (represented : graph.RepresentedBy order)
    {symbol : Symbol} {phi : NodeId} (fresh : graph.nodes phi = none) {added : Bool}
    (returns : graph.basicBlockInsertPhi fuel block symbol phi = some (final, added)) :
    final.Represented := by
  rw [IRGraph.basicBlockInsertPhi] at returns
  split at returns
  · cases returns
    exact ⟨order, represented⟩
  · next code codeEq =>
      simp only [Option.bind_eq_bind, Option.bind_eq_some_iff] at returns
      obtain ⟨found, -, returns⟩ := returns
      split at returns
      · cases returns
        exact ⟨order, represented⟩
      · cases returns
        have newPhi : (graph.newIRPhi phi symbol).RepresentedBy order :=
          represented.allocate fresh rfl rfl rfl
        have first := (newPhi.spans block).mem_of_code codeEq
        have emitted : ((graph.newIRPhi phi symbol).basicBlockEmitBefore block phi
            code).Represented :=
          newPhi.basicBlockEmitBefore (by simp [newIRPhi, IRGraph.allocate])
            (represented.not_mem fresh) first.1 first.2
        have isCode : ((graph.newIRPhi phi symbol).spans block).code = some code := codeEq
        simp only [IRGraph.basicBlockEmitBefore, isCode, if_true,
          generatorEmitBefore_setSpan] at emitted
        rw [spans_generatorEmitBefore]
        exact emitted

theorem RepresentedBy.not_listed (represented : graph.RepresentedBy order)
    (unlisted : ¬graph.Listed id) : id ∉ order := by
  intro mem
  exact unlisted ⟨order, represented.list, mem⟩

/-- One permitted and safe operation keeps the invariant. -/
theorem represented_edits (represented : graph.Represented) (edits : graph.Edits final) :
    final.Represented := by
  obtain ⟨order, represented⟩ := represented
  obtain ⟨fuel, edit, permitted, safe, returns⟩ := edits
  have splits (id : NodeId) (listed : graph.Listed id) :
      ∃ front back, graph.RepresentedBy (front ++ id :: back) := by
    obtain ⟨front, back, split⟩ := List.append_of_mem (represented.mem_of_listed listed)
    exact ⟨front, back, split ▸ represented⟩
  cases edit with
  | newIR id opcode =>
    cases returns
    exact ⟨order, represented.allocate permitted rfl rfl rfl⟩
  | irAddInput user operand copyType => exact ⟨order, represented.irAddInput returns⟩
  | irReplaceInput user index new => exact ⟨order, represented.irReplaceInput returns⟩
  | irRemoveInput user index => exact ⟨order, represented.irRemoveInput returns⟩
  | irRemoveNode id =>
    obtain ⟨front, back, represented⟩ := splits id permitted.1
    exact ⟨front ++ back, represented.irRemoveNode permitted.2 returns⟩
  | generatorReplaceInstruction old new =>
    exact ⟨order, represented.generatorReplaceInstruction permitted returns⟩
  | basicBlockRemoveInstruction block inst =>
    cases returns
    obtain ⟨front, back, represented⟩ := splits inst permitted
    exact ⟨front ++ back, represented.basicBlockRemoveInstruction safe⟩
  | basicBlockReplaceInstruction block old new =>
    obtain ⟨front, back, represented⟩ := splits old permitted.1
    exact ⟨front ++ back,
      represented.basicBlockReplaceInstruction permitted.2 safe.1 safe.2 returns⟩
  | basicBlockMoveInstructionBefore inst pos =>
    obtain ⟨instListed, posListed, apart⟩ := permitted
    exact represented.basicBlockMoveInstructionBefore (represented.mem_of_listed instListed)
      (represented.mem_of_listed posListed) apart returns
  | basicBlockMoveInstructionAfter inst pos =>
    obtain ⟨instListed, posListed, apart⟩ := permitted
    exact represented.basicBlockMoveInstructionAfter (represented.mem_of_listed instListed)
      (represented.mem_of_listed posListed) apart returns
  | basicBlockEmitBefore block inst pos =>
    cases returns
    obtain ⟨allocated, unlisted, posListed, owned⟩ := permitted
    exact represented.basicBlockEmitBefore allocated (represented.not_listed unlisted)
      (represented.mem_of_listed posListed) owned
  | basicBlockInsertPhi block symbol phi =>
    obtain ⟨⟨result, added⟩, inserted, rfl⟩ := Option.map_eq_some_iff.mp returns
    exact represented.basicBlockInsertPhi permitted inserted

/-- Every state that permitted and safe operations reach keeps the invariant. -/
theorem represented_of_run {start finish : IRGraph} (represented : start.Represented)
    (run : Relation.ReflTransGen Edits start finish) : finish.Represented := by
  induction run with
  | refl => exact represented
  | tail _ edits ih => exact represented_edits ih edits

/-- A constant, a product of it with itself and a return, each in a block of its own. -/
def productAlone : IRGraph where
  nodes
    | 0 => some { opcode := .const32, outputs := [1, 1], block := some 0 }
    | 1 => some { opcode := .muli, inputs := [0, 0], outputs := [2], block := some 1 }
    | 2 => some { opcode := .ret, inputs := [1], block := some 2 }
    | _ => none
  code :=
    { first := some 0
      last := some 2
      length := 3
      prev := fun | 1 => some 0 | 2 => some 1 | _ => none
      next := fun | 0 => some 1 | 1 => some 2 | _ => none }
  spans
    | 0 => { code := some 0, endCode := some 0 }
    | 1 => { code := some 1, endCode := some 1 }
    | 2 => { code := some 2, endCode := some 2 }
    | _ => {}

theorem represented_productAlone : productAlone.RepresentedBy [0, 1, 2] := by
  constructor
  · constructor
    · decide
    · rfl
    · rfl
    · rfl
    · intro before element after split
      match before with
      | [] | [_] | [_, _] => cases split; rfl
      | _ :: _ :: _ :: rest => simp at split
    · intro before element after split
      match before with
      | [] | [_] | [_, _] => cases split; rfl
      | _ :: _ :: _ :: rest => simp at split
  · decide
  · intro id outside allocated
    match id with
    | 0 | 1 | 2 => exact absurd outside (by decide)
    | _ + 3 => exact absurd allocated (by simp [productAlone])
  · intro user operand
    match user, operand with
    | 0, 0 | 0, 1 | 0, 2 | 1, 0 | 1, 1 | 1, 2 | 2, 0 | 2, 1 | 2, 2 => rfl
    | 0, _ + 3 | 1, _ + 3 | 2, _ + 3 | _ + 3, 0 | _ + 3, 1 | _ + 3, 2 | _ + 3, _ + 3 =>
      simp [productAlone, inputs, outputs]
  · intro block
    rcases block with _ | _ | _ | block
    · exact ⟨[], [0], [1, 2], rfl, by decide, rfl, rfl⟩
    · exact ⟨[0], [1], [2], rfl, by decide, rfl, rfl⟩
    · exact ⟨[0, 1], [2], [], rfl, by decide, rfl, rfl⟩
    · exact ⟨[0, 1, 2], [], [], rfl, by simp [productAlone, blockOf], rfl, rfl⟩

/-- Removing the product through its own block is safe. -/
theorem edits_productAlone :
    productAlone.Edits (productAlone.basicBlockRemoveInstruction 1 1) := by
  refine ⟨0, .basicBlockRemoveInstruction 1 1, ?_, ?_, rfl⟩
  · exact ⟨[0, 1, 2], represented_productAlone.list, by decide⟩
  · intro own isEnd
    have owned := represented_productAlone.blockOf_of_isEnd isEnd
    exact (Option.some.inj owned).symm

theorem represented_without_product :
    (productAlone.basicBlockRemoveInstruction 1 1).Represented :=
  represented_of_run ⟨_, represented_productAlone⟩ (.single edits_productAlone)

/-- The ends of the block of a product that is replaced by its operand are the
instructions before it and after it. -/
theorem not_represented_replacedProduct :
    productAlone.Represented ∧ Edit.Permitted productAlone (.basicBlockReplaceInstruction 1 1 0) ∧
      ∃ final, Edit.apply 0 productAlone (.basicBlockReplaceInstruction 1 1 0) = some final ∧
        ¬final.Represented := by
  refine ⟨⟨_, represented_productAlone⟩, ⟨⟨_, represented_productAlone.list, by decide⟩, rfl⟩,
    _, rfl, ?_⟩
  rintro ⟨order, represented⟩
  have owned : IRGraph.blockOf _ 2 = some 1 := represented.blockOf_of_isEnd (.inl rfl)
  exact absurd owned (by decide)

end DaveCC.Backend.IRGraph
