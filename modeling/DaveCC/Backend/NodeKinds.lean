import DaveCC.Backend.BlockEditing

/-!
# The kinds of nodes under editing

The operations on edges leave the opcode, the block and the variable of every node
alone, and removing an instruction leaves those of the other nodes. A node that does
not use a removed instruction keeps its inputs.
-/

namespace DaveCC.Backend

/-- What the operations on edges leave alone. -/
def EditedNode.kind (node : EditedNode) : IROpcode × Option BlockId × Option Symbol :=
  (node.opcode, node.block, node.symbol)

namespace IRGraph

open DaveCC.Container DaveCC.Graph

def kind (graph : IRGraph) (id : NodeId) : Option (IROpcode × Option BlockId × Option Symbol) :=
  (graph.nodes id).map EditedNode.kind

variable {graph final : IRGraph} {user operand id : NodeId}

abbrev SameKinds (left right : IRGraph) : Prop :=
  left.SameFields EditedNode.kind right

theorem sameKinds_editInputs (edit : List NodeId → List NodeId) :
    (graph.editInputs id edit).SameKinds graph :=
  sameFields_modify fun _ => rfl

theorem sameKinds_editOutputs (edit : List NodeId → List NodeId) :
    (graph.editOutputs id edit).SameKinds graph :=
  sameFields_modify fun _ => rfl

theorem sameKinds_irAddInput {fuel : Nat} {copyType : Bool}
    (returns : graph.irAddInput fuel user operand copyType = some final) :
    final.SameKinds graph := by
  simp only [irAddInput, Option.bind_eq_bind, Option.bind_eq_some_iff] at returns
  obtain ⟨target, -, node, -, -, -, returns⟩ := returns
  have linked : ((graph.editInputs user (· ++ [operand])).editOutputs operand
      (· ++ [user])).SameKinds graph :=
    (sameKinds_editOutputs _).trans (sameKinds_editInputs _)
  apply (sameFields_irRecomputeValueState (fun _ _ => rfl) returns).trans
  cases copyType with
  | false => exact linked
  | true =>
    apply SameFields.trans _ linked
    cases target.type with
    | none => exact sameFields_modify fun _ => rfl
    | some type => exact sameFields_modify fun _ => rfl

theorem sameKinds_irRemoveInput {fuel index : Nat}
    (returns : graph.irRemoveInput fuel user index = some final) : final.SameKinds graph := by
  simp only [irRemoveInput, Option.bind_eq_bind, Option.bind_eq_some_iff] at returns
  obtain ⟨operand, -, -, -, returns⟩ := returns
  apply (sameFields_irRecomputeValueState (fun _ _ => rfl) returns).trans
  exact (sameKinds_editInputs _).trans (sameKinds_editOutputs _)

theorem sameKinds_foldl {step : IRGraph → NodeId → IRGraph}
    (steps : ∀ graph id, (step graph id).SameKinds graph) (ids : List NodeId)
    (graph : IRGraph) : (ids.foldl step graph).SameKinds graph := by
  induction ids generalizing graph with
  | nil => exact .refl _ graph
  | cons id rest ih => exact (ih (step graph id)).trans (steps graph id)

theorem sameKinds_irRemoveNode (id : NodeId) : (graph.irRemoveNode id).SameKinds graph := by
  exact (sameKinds_foldl (fun _ _ => sameKinds_editInputs _) _ _).trans
    (sameKinds_foldl (fun _ _ => sameKinds_editOutputs _) _ _)

variable {block : BlockId} {inst : NodeId}

/-- The graph once the instruction has left the list. -/
def unlinked (graph : IRGraph) (block : BlockId) (inst : NodeId) : IRGraph :=
  let graph := graph.setSpan block (graph.leaveSpan (graph.spans block) inst)
  { graph with code := graph.code.deleteElement inst }

theorem basicBlockRemoveInstruction_eq :
    graph.basicBlockRemoveInstruction block inst =
      ((graph.unlinked block inst).irRemoveNode inst).release inst :=
  rfl

theorem kind_basicBlockRemoveInstruction (apart : id ≠ inst) :
    (graph.basicBlockRemoveInstruction block inst).kind id = graph.kind id := by
  rw [basicBlockRemoveInstruction_eq, kind, nodes_release apart]
  exact (sameKinds_irRemoveNode inst).nodes id

theorem kind_basicBlockRemoveInstruction_self :
    (graph.basicBlockRemoveInstruction block inst).kind inst = none := by
  simp [basicBlockRemoveInstruction_eq, kind, release]

theorem inputs_basicBlockRemoveInstruction_eq (graph : IRGraph) (block : BlockId)
    (apart : id ≠ inst) :
    ∃ users, (graph.basicBlockRemoveInstruction block inst).inputs id =
      eraseFrom inst graph.inputs users id := by
  let unlinked := graph.unlinked block inst
  have first := eraseOutputs_spec inst (unlinked.inputs inst) unlinked
  have second := eraseInputs_spec inst
    (((unlinked.inputs inst).foldl
      (fun graph operand => graph.editOutputs operand (·.erase inst)) unlinked).outputs inst)
    ((unlinked.inputs inst).foldl
      (fun graph operand => graph.editOutputs operand (·.erase inst)) unlinked)
  rw [basicBlockRemoveInstruction_eq, inputs_release, Function.update_of_ne apart, irRemoveNode,
    second.2, first.1]
  exact ⟨_, rfl⟩

theorem inputs_basicBlockRemoveInstruction (apart : id ≠ inst) (unused : inst ∉ graph.inputs id) :
    (graph.basicBlockRemoveInstruction block inst).inputs id = graph.inputs id := by
  obtain ⟨users, inputs⟩ := graph.inputs_basicBlockRemoveInstruction_eq block apart
  rw [inputs]
  exact eraseFrom_of_notMem unused users

/-- An input other than the removed instruction stays. -/
theorem mem_inputs_basicBlockRemoveInstruction (apart : id ≠ inst) (other : operand ≠ inst) :
    operand ∈ (graph.basicBlockRemoveInstruction block inst).inputs id ↔
      operand ∈ graph.inputs id := by
  obtain ⟨users, inputs⟩ := graph.inputs_basicBlockRemoveInstruction_eq block apart
  rw [← List.count_pos_iff, ← List.count_pos_iff, inputs, count_eraseFrom, if_neg other]

theorem inverse_basicBlockRemoveInstruction (inverse : EdgeInverse graph.inputs graph.outputs) :
    EdgeInverse (graph.basicBlockRemoveInstruction block inst).inputs
      (graph.basicBlockRemoveInstruction block inst).outputs :=
  inverse_irRemoveNode
    (show EdgeInverse (graph.unlinked block inst).inputs (graph.unlinked block inst).outputs from
      inverse) inst

end IRGraph

end DaveCC.Backend
