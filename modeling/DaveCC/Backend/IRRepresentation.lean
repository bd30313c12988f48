import DaveCC.Backend.BlockSpans
import DaveCC.Graph.EdgeInverse

/-!
# The representation invariant of the intermediate representation

The code list represents a sequence of allocated nodes, every edge is listed at
both of its ends, and the ends of every block delimit the run of its instructions.
The lemmas say what each operation does to the invariant.
-/

namespace DaveCC.Backend.IRGraph

open DaveCC.Container DaveCC.Graph

/-- The graph represents a sequence of instructions. -/
structure RepresentedBy (graph : IRGraph) (order : List NodeId) : Prop where
  list : graph.code.Represents order
  allocated : ∀ id ∈ order, (graph.nodes id).isSome
  detached : ∀ id, id ∉ order → (graph.nodes id).isSome → graph.code.Detached id
  inverse : EdgeInverse graph.inputs graph.outputs
  spans : ∀ block, (graph.spans block).Delimits order graph.blockOf block

/-- The representation invariant. -/
def Represented (graph : IRGraph) : Prop :=
  ∃ order, graph.RepresentedBy order

/-- Two graphs agree on everything the invariant reads. -/
structure Agrees (left right : IRGraph) : Prop where
  code : left.code = right.code
  spans : left.spans = right.spans
  inputs : left.inputs = right.inputs
  outputs : left.outputs = right.outputs
  blockOf : left.blockOf = right.blockOf
  allocated : ∀ id, (left.nodes id).isSome = (right.nodes id).isSome

variable {graph other : IRGraph} {order front back : List NodeId} {id : NodeId}
  {change : EditedNode → EditedNode}

theorem Agrees.refl (graph : IRGraph) : graph.Agrees graph :=
  ⟨rfl, rfl, rfl, rfl, rfl, fun _ => rfl⟩

variable {third : IRGraph}

theorem Agrees.trans (first : graph.Agrees other) (second : other.Agrees third) :
    graph.Agrees third where
  code := first.code.trans second.code
  spans := first.spans.trans second.spans
  inputs := first.inputs.trans second.inputs
  outputs := first.outputs.trans second.outputs
  blockOf := first.blockOf.trans second.blockOf
  allocated := fun id => (first.allocated id).trans (second.allocated id)

/-- The invariant depends on the lists alone. -/
theorem RepresentedBy.congr (represented : graph.RepresentedBy order)
    (agrees : other.Agrees graph) : other.RepresentedBy order where
  list := by rw [agrees.code]; exact represented.list
  allocated := by
    intro id listed
    rw [agrees.allocated]
    exact represented.allocated id listed
  detached := by
    intro id outside allocated
    rw [agrees.allocated] at allocated
    rw [agrees.code]
    exact represented.detached id outside allocated
  inverse := by rw [agrees.inputs, agrees.outputs]; exact represented.inverse
  spans := by rw [agrees.spans, agrees.blockOf]; exact represented.spans

theorem isSome_modify (target : NodeId) :
    ((graph.modify id change).nodes target).isSome = (graph.nodes target).isSome := by
  simp only [modify, Function.update_apply]
  split
  · next same => rw [Option.isSome_map, same]
  · rfl

theorem inputs_congr (nodes : other.nodes = graph.nodes) : other.inputs = graph.inputs := by
  funext target
  rw [inputs, inputs, nodes]

theorem outputs_congr (nodes : other.nodes = graph.nodes) : other.outputs = graph.outputs := by
  funext target
  rw [outputs, outputs, nodes]

variable {edit : List NodeId → List NodeId}

/-- The inputs of an absent node change only if an empty list would. -/
theorem inputs_editInputs (edits : (graph.nodes id).isSome ∨ edit [] = []) :
    (graph.editInputs id edit).inputs =
      Function.update graph.inputs id (edit (graph.inputs id)) := by
  funext target
  by_cases same : target = id
  · subst same
    cases node : graph.nodes target with
    | none =>
      have unchanged : edit [] = [] := by simpa [node] using edits
      simp [editInputs, modify, inputs, node, unchanged]
    | some node => simp [editInputs, modify, inputs, node]
  · simp [editInputs, modify, inputs, same]

theorem outputs_editOutputs (edits : (graph.nodes id).isSome ∨ edit [] = []) :
    (graph.editOutputs id edit).outputs =
      Function.update graph.outputs id (edit (graph.outputs id)) := by
  funext target
  by_cases same : target = id
  · subst same
    cases node : graph.nodes target with
    | none =>
      have unchanged : edit [] = [] := by simpa [node] using edits
      simp [editOutputs, modify, outputs, node, unchanged]
    | some node => simp [editOutputs, modify, outputs, node]
  · simp [editOutputs, modify, outputs, same]

theorem inputs_modify_of_keeps (keeps : ∀ node, (change node).inputs = node.inputs) :
    (graph.modify id change).inputs = graph.inputs := by
  funext target
  by_cases same : target = id
  · subst same
    cases node : graph.nodes target <;> simp [modify, inputs, node, keeps]
  · simp [modify, inputs, same]

theorem outputs_modify_of_keeps (keeps : ∀ node, (change node).outputs = node.outputs) :
    (graph.modify id change).outputs = graph.outputs := by
  funext target
  by_cases same : target = id
  · subst same
    cases node : graph.nodes target <;> simp [modify, outputs, node, keeps]
  · simp [modify, outputs, same]

@[simp] theorem inputs_editOutputs (edit : List NodeId → List NodeId) :
    (graph.editOutputs id edit).inputs = graph.inputs :=
  inputs_modify_of_keeps fun _ => rfl

@[simp] theorem outputs_editInputs (edit : List NodeId → List NodeId) :
    (graph.editInputs id edit).outputs = graph.outputs :=
  outputs_modify_of_keeps fun _ => rfl

theorem blockOf_modify_of_keeps (keeps : ∀ node, (change node).block = node.block) :
    (graph.modify id change).blockOf = graph.blockOf := by
  funext target
  by_cases same : target = id
  · subst same
    cases node : graph.nodes target <;> simp [modify, blockOf, node, keeps]
  · simp [modify, blockOf, same]

theorem agrees_modify (inputs : ∀ node, (change node).inputs = node.inputs)
    (outputs : ∀ node, (change node).outputs = node.outputs)
    (block : ∀ node, (change node).block = node.block) :
    (graph.modify id change).Agrees graph where
  code := rfl
  spans := rfl
  inputs := inputs_modify_of_keeps inputs
  outputs := outputs_modify_of_keeps outputs
  blockOf := blockOf_modify_of_keeps block
  allocated := isSome_modify

theorem agrees_irSetType (type : Option TypeRecord) :
    (graph.modify id (irSetType type)).Agrees graph := by
  cases type with
  | none => exact agrees_modify (fun _ => rfl) (fun _ => rfl) (fun _ => rfl)
  | some type => exact agrees_modify (fun _ => rfl) (fun _ => rfl) (fun _ => rfl)

/-- Two graphs agree on the list and on a view of every node. -/
structure SameFields {γ : Type*} (view : EditedNode → γ) (left right : IRGraph) : Prop where
  code : left.code = right.code
  spans : left.spans = right.spans
  nodes : ∀ id, (left.nodes id).map view = (right.nodes id).map view

section SameFields

variable {γ δ : Type*} {view : EditedNode → γ}

theorem SameFields.refl (view : EditedNode → γ) (graph : IRGraph) : graph.SameFields view graph :=
  ⟨rfl, rfl, fun _ => rfl⟩

theorem SameFields.trans {third : IRGraph} (first : graph.SameFields view other)
    (second : other.SameFields view third) : graph.SameFields view third where
  code := first.code.trans second.code
  spans := first.spans.trans second.spans
  nodes := fun id => (first.nodes id).trans (second.nodes id)

/-- What a view determines. -/
theorem SameFields.map (same : graph.SameFields view other) (image : γ → δ) (id : NodeId) :
    (graph.nodes id).map (image ∘ view) = (other.nodes id).map (image ∘ view) := by
  rw [← Option.map_map, ← Option.map_map, same.nodes]

theorem sameFields_modify (keeps : ∀ node, view (change node) = view node) :
    (graph.modify id change).SameFields view graph where
  code := rfl
  spans := rfl
  nodes := by
    intro target
    simp only [modify, Function.update_apply]
    split
    · next same =>
        rw [Option.map_map, same]
        exact Option.map_congr fun node _ => keeps node
    · rfl

/-- `IRRecomputeValueState` changes value states only. -/
theorem sameFields_irRecomputeValueState {fuel : Nat} {final : IRGraph}
    (keeps : ∀ node state, view { node with valueState := state } = view node)
    (returns : graph.irRecomputeValueState fuel id = some final) : final.SameFields view graph := by
  have stored (graph : IRGraph) (storage : NodeId) (state : ValueState) :
      (graph.setStorageState storage state).SameFields view graph := by
    apply sameFields_modify
    intro node
    split
    · exact keeps node state
    · rfl
  simp only [irRecomputeValueState, Option.bind_eq_bind, Option.bind_eq_some_iff] at returns
  obtain ⟨node, -, returns⟩ := returns
  split at returns
  · cases returns
    exact .refl view graph
  split at returns
  · cases returns
    exact .refl view graph
  split at returns
  · obtain ⟨storage, -, returns⟩ := Option.bind_eq_some_iff.mp returns
    cases returns
    exact stored graph storage node.valueState
  split at returns
  · simp only [Option.bind_eq_some_iff] at returns
    obtain ⟨second, -, source, -, storage, -, returns⟩ := returns
    cases returns
    exact (stored _ storage source.valueState).trans (sameFields_modify fun node => keeps node _)
  · obtain ⟨operands, -, returns⟩ := Option.bind_eq_some_iff.mp returns
    cases returns
    exact sameFields_modify fun node => keeps node _

end SameFields

variable {fuel : Nat} {final : IRGraph}

theorem agrees_irRecomputeValueState (returns : graph.irRecomputeValueState fuel id = some final) :
    final.Agrees graph := by
  have same : final.SameFields (fun node => (node.inputs, node.outputs, node.block)) graph :=
    sameFields_irRecomputeValueState (fun _ _ => rfl) returns
  constructor
  · exact same.code
  · exact same.spans
  · funext target
    exact congrArg (·.getD []) (same.map (·.1) target)
  · funext target
    exact congrArg (·.getD []) (same.map (·.2.1) target)
  · funext target
    have block := congrArg (·.bind fun block => block) (same.map (·.2.2) target)
    simp only [Option.bind_map] at block
    exact block
  · intro target
    have allocated := congrArg Option.isSome (same.nodes target)
    rwa [Option.isSome_map, Option.isSome_map] at allocated

/-! ## Operations on edges -/

/-- Changing edges keeps the list, the allocation and the blocks of the nodes. -/
structure SameList (left right : IRGraph) : Prop where
  code : left.code = right.code
  spans : left.spans = right.spans
  blockOf : left.blockOf = right.blockOf
  allocated : ∀ id, (left.nodes id).isSome = (right.nodes id).isSome

theorem SameList.trans (first : graph.SameList other) (second : other.SameList third) :
    graph.SameList third where
  code := first.code.trans second.code
  spans := first.spans.trans second.spans
  blockOf := first.blockOf.trans second.blockOf
  allocated := fun id => (first.allocated id).trans (second.allocated id)

theorem sameList_modify (block : ∀ node, (change node).block = node.block) :
    (graph.modify id change).SameList graph where
  code := rfl
  spans := rfl
  blockOf := blockOf_modify_of_keeps block
  allocated := isSome_modify

theorem sameList_editInputs (edit : List NodeId → List NodeId) :
    (graph.editInputs id edit).SameList graph :=
  sameList_modify fun _ => rfl

theorem sameList_editOutputs (edit : List NodeId → List NodeId) :
    (graph.editOutputs id edit).SameList graph :=
  sameList_modify fun _ => rfl

theorem RepresentedBy.of_edges (represented : graph.RepresentedBy order)
    (same : other.SameList graph) (inverse : EdgeInverse other.inputs other.outputs) :
    other.RepresentedBy order where
  list := by rw [same.code]; exact represented.list
  allocated := by
    intro id listed
    rw [same.allocated]
    exact represented.allocated id listed
  detached := by
    intro id outside allocated
    rw [same.allocated] at allocated
    rw [same.code]
    exact represented.detached id outside allocated
  inverse := inverse
  spans := by rw [same.spans, same.blockOf]; exact represented.spans

theorem Agrees.sameList (agrees : graph.Agrees other) : graph.SameList other :=
  ⟨agrees.code, agrees.spans, agrees.blockOf, agrees.allocated⟩

/-- What `IRAddInput` does to the lists of the nodes. -/
structure AddsInput (graph final : IRGraph) (user operand : NodeId) : Prop where
  same : final.SameList graph
  inputs : final.inputs = Function.update graph.inputs user (graph.inputs user ++ [operand])
  outputs : final.outputs = Function.update graph.outputs operand (graph.outputs operand ++ [user])

variable {user operand : NodeId} {copyType : Bool}

theorem addsInput_irAddInput (returns : graph.irAddInput fuel user operand copyType = some final) :
    graph.AddsInput final user operand := by
  simp only [IRGraph.irAddInput, Option.bind_eq_bind, Option.bind_eq_some_iff] at returns
  obtain ⟨target, targetEq, node, nodeEq, -, -, returns⟩ := returns
  have userAllocated : (graph.nodes user).isSome := by simp [nodeEq]
  have operandAllocated :
      ((graph.editInputs user (· ++ [operand])).nodes operand).isSome := by
    rw [(sameList_editInputs _).allocated, targetEq]
    rfl
  let linked := (graph.editInputs user (· ++ [operand])).editOutputs operand (· ++ [user])
  have agrees : final.Agrees linked := by
    apply (agrees_irRecomputeValueState returns).trans
    cases copyType with
    | false => exact .refl linked
    | true => exact agrees_irSetType target.type
  constructor
  · exact agrees.sameList.trans ((sameList_editOutputs _).trans (sameList_editInputs _))
  · rw [agrees.inputs, inputs_editOutputs, inputs_editInputs (.inl userAllocated)]
  · rw [agrees.outputs, outputs_editOutputs (.inl operandAllocated), outputs_editInputs]

theorem AddsInput.inverse {final : IRGraph} {user operand : NodeId}
    (adds : graph.AddsInput final user operand) (inverse : EdgeInverse graph.inputs graph.outputs) :
    EdgeInverse final.inputs final.outputs := by
  rw [adds.inputs, adds.outputs]
  exact inverse.link

theorem RepresentedBy.irAddInput (represented : graph.RepresentedBy order)
    (returns : graph.irAddInput fuel user operand copyType = some final) :
    final.RepresentedBy order := by
  have adds := addsInput_irAddInput returns
  exact represented.of_edges adds.same (adds.inverse represented.inverse)

variable {new : NodeId} {index : Nat}

theorem RepresentedBy.irReplaceInput (represented : graph.RepresentedBy order)
    (returns : graph.irReplaceInput fuel user index new = some final) :
    final.RepresentedBy order := by
  simp only [IRGraph.irReplaceInput, Option.bind_eq_bind, Option.bind_eq_some_iff] at returns
  obtain ⟨existing, found, -, -, node, nodeEq, returns⟩ := returns
  apply RepresentedBy.congr _ (agrees_irRecomputeValueState returns)
  apply represented.of_edges
  · apply (sameList_editOutputs _).trans
    exact (sameList_editInputs _).trans (sameList_editOutputs _)
  · rw [inputs_editOutputs, outputs_editOutputs (.inl (by simp [nodeEq])), inputs_editInputs (.inr
      rfl), outputs_editInputs, inputs_editOutputs, outputs_editOutputs (.inr rfl)]
    exact represented.inverse.relink found

/-- What `IRRemoveInput` does to the lists of the nodes. -/
structure RemovesInput (graph final : IRGraph) (user : NodeId) (index : Nat) : Prop where
  same : final.SameList graph
  inputs : final.inputs = Function.update graph.inputs user ((graph.inputs user).eraseIdx index)
  outputs : ∃ operand, (graph.inputs user)[index]? = some operand ∧
    final.outputs = Function.update graph.outputs operand ((graph.outputs operand).erase user)

theorem removesInput_irRemoveInput (returns : graph.irRemoveInput fuel user index = some final) :
    graph.RemovesInput final user index := by
  simp only [IRGraph.irRemoveInput, Option.bind_eq_bind, Option.bind_eq_some_iff] at returns
  obtain ⟨operand, found, -, -, returns⟩ := returns
  have agrees := agrees_irRecomputeValueState returns
  constructor
  · exact agrees.sameList.trans ((sameList_editInputs _).trans (sameList_editOutputs _))
  · rw [agrees.inputs, inputs_editInputs (.inr rfl), inputs_editOutputs]
  · refine ⟨operand, found, ?_⟩
    rw [agrees.outputs, outputs_editInputs, outputs_editOutputs (.inr rfl)]

theorem RemovesInput.inverse {final : IRGraph} {user : NodeId} {index : Nat}
    (removes : graph.RemovesInput final user index)
    (inverse : EdgeInverse graph.inputs graph.outputs) :
    EdgeInverse final.inputs final.outputs := by
  obtain ⟨operand, found, outputs⟩ := removes.outputs
  rw [removes.inputs, outputs]
  exact inverse.unlink found

theorem RepresentedBy.irRemoveInput (represented : graph.RepresentedBy order)
    (returns : graph.irRemoveInput fuel user index = some final) : final.RepresentedBy order := by
  have removes := removesInput_irRemoveInput returns
  exact represented.of_edges removes.same (removes.inverse represented.inverse)

/-- The loops of `IRRemoveNode`. -/
theorem sameList_foldl {step : IRGraph → NodeId → IRGraph}
    (steps : ∀ graph id, (step graph id).SameList graph) (ids : List NodeId)
    (graph : IRGraph) : (ids.foldl step graph).SameList graph := by
  induction ids generalizing graph with
  | nil => exact ⟨rfl, rfl, rfl, fun _ => rfl⟩
  | cons id rest ih => exact (ih (step graph id)).trans (steps graph id)

theorem eraseOutputs_spec (user : NodeId) (operands : List NodeId) (graph : IRGraph) :
    let final := operands.foldl (fun graph operand => graph.editOutputs operand (·.erase user)) graph
    final.inputs = graph.inputs ∧ final.outputs = eraseFrom user graph.outputs operands := by
  induction operands generalizing graph with
  | nil => exact ⟨rfl, rfl⟩
  | cons operand rest ih =>
    obtain ⟨inputsEq, outputsEq⟩ := ih (graph.editOutputs operand (·.erase user))
    rw [inputs_editOutputs] at inputsEq
    rw [outputs_editOutputs (.inr rfl)] at outputsEq
    exact ⟨inputsEq, outputsEq⟩

theorem eraseInputs_spec (operand : NodeId) (users : List NodeId) (graph : IRGraph) :
    let final := users.foldl (fun graph user => graph.editInputs user (·.erase operand)) graph
    final.outputs = graph.outputs ∧ final.inputs = eraseFrom operand graph.inputs users := by
  induction users generalizing graph with
  | nil => exact ⟨rfl, rfl⟩
  | cons user rest ih =>
    obtain ⟨outputsEq, inputsEq⟩ := ih (graph.editInputs user (·.erase operand))
    rw [outputs_editInputs] at outputsEq
    rw [inputs_editInputs (.inr rfl)] at inputsEq
    exact ⟨outputsEq, inputsEq⟩

theorem sameList_irRemoveNode (id : NodeId) : (graph.irRemoveNode id).SameList graph := by
  exact (sameList_foldl (fun _ _ => sameList_editInputs _) _ _).trans
    (sameList_foldl (fun _ _ => sameList_editOutputs _) _ _)

theorem inputs_release (id : NodeId) :
    (graph.release id).inputs = Function.update graph.inputs id [] := by
  funext target
  by_cases same : target = id
  · subst same
    simp [release, inputs]
  · simp [release, inputs, same]

theorem outputs_release (id : NodeId) :
    (graph.release id).outputs = Function.update graph.outputs id [] := by
  funext target
  by_cases same : target = id
  · subst same
    simp [release, outputs]
  · simp [release, outputs, same]

variable {target : NodeId}

theorem blockOf_release (apart : target ≠ id) :
    (graph.release id).blockOf target = graph.blockOf target := by
  simp [release, blockOf, apart]

theorem nodes_release (apart : target ≠ id) :
    (graph.release id).nodes target = graph.nodes target :=
  Function.update_of_ne apart ..

/-- A node that has been taken from its neighbours leaves no edge behind. -/
theorem inverse_irRemoveNode (inverse : EdgeInverse graph.inputs graph.outputs) (id : NodeId) :
    EdgeInverse ((graph.irRemoveNode id).release id).inputs
      ((graph.irRemoveNode id).release id).outputs := by
  have first := eraseOutputs_spec id (graph.inputs id) graph
  rw [inputs_release, outputs_release, irRemoveNode]
  generalize (graph.inputs id).foldl
    (fun graph operand => graph.editOutputs operand (·.erase id)) graph = middle at first ⊢
  obtain ⟨inputsEq, outputsEq⟩ := first
  obtain ⟨outputsEq', inputsEq'⟩ := eraseInputs_spec id (middle.outputs id) middle
  rw [outputsEq', inputsEq', inputsEq, outputsEq]
  exact inverse.isolate id

variable {old : NodeId}

theorem sameList_replaceOperand (user : NodeId) :
    (graph.replaceOperand old new user).SameList graph := by
  rw [replaceOperand]
  exact (sameList_editOutputs _).trans (sameList_editInputs _)

theorem replaceOperands_spec (old new : NodeId) (users : List NodeId) (graph : IRGraph)
    (allocated : (graph.nodes new).isSome) :
    let final := users.foldl (fun graph user => graph.replaceOperand old new user) graph
    (final.inputs, final.outputs) = moveUses old new (graph.inputs, graph.outputs) users := by
  induction users generalizing graph with
  | nil => rfl
  | cons user rest ih =>
    have same : (graph.replaceOperand old new user).SameList graph := sameList_replaceOperand user
    have rest := ih (graph.replaceOperand old new user) (by rw [same.allocated]; exact allocated)
    have allocated' (edit : List NodeId → List NodeId) :
        ((graph.editInputs user edit).nodes new).isSome := by
      rw [(sameList_editInputs _).allocated]
      exact allocated
    have inputsEq : (graph.replaceOperand old new user).inputs =
        Function.update graph.inputs user ((graph.inputs user).map (substitute old new)) := by
      rw [replaceOperand, inputs_editOutputs, inputs_editInputs (.inr rfl)]
      rfl
    have outputsEq : (graph.replaceOperand old new user).outputs =
        Function.update graph.outputs new
          (graph.outputs new ++ List.replicate ((graph.inputs user).count old) user) := by
      rw [replaceOperand, outputs_editOutputs (.inl (allocated' _)), outputs_editInputs]
    rw [inputsEq, outputsEq] at rest
    exact rest

theorem generatorReplaceInstruction_spec (inverse : EdgeInverse graph.inputs graph.outputs)
    (allocated : (graph.nodes new).isSome)
    (returns : graph.generatorReplaceInstruction old new = some other) :
    other.SameList graph ∧ EdgeInverse other.inputs other.outputs := by
  simp only [generatorReplaceInstruction, Option.bind_eq_bind, Option.bind_eq_some_iff] at returns
  obtain ⟨passed, guarded, returns⟩ := returns
  cases returns
  refine ⟨(sameList_editOutputs _).trans
    (sameList_foldl (fun _ _ => sameList_replaceOperand _) _ _), ?_⟩
  have moved := replaceOperands_spec old new (graph.outputs old) graph allocated
  rw [inputs_editOutputs, outputs_editOutputs (.inr rfl)]
  by_cases apart : old = new
  · have unused : graph.outputs old = [] := by
      simpa [apart, guard] using guarded
    rw [unused, List.foldl_nil, ← unused, Function.update_eq_self]
    exact inverse
  · have transferred := inverse.transfer apart
    rw [← moved] at transferred
    exact transferred

theorem RepresentedBy.generatorReplaceInstruction (represented : graph.RepresentedBy order)
    (allocated : (graph.nodes new).isSome)
    (returns : graph.generatorReplaceInstruction old new = some other) :
    other.RepresentedBy order := by
  obtain ⟨same, inverse⟩ :=
    generatorReplaceInstruction_spec represented.inverse allocated returns
  exact represented.of_edges same inverse

/-! ## Instructions that come and go -/

theorem RepresentedBy.not_mem (represented : graph.RepresentedBy order)
    (absent : graph.nodes id = none) : id ∉ order := by
  intro listed
  have allocated := represented.allocated id listed
  rw [absent] at allocated
  cases allocated

theorem RepresentedBy.allocate (represented : graph.RepresentedBy order) {node : EditedNode}
    (fresh : graph.nodes id = none) (inputs : node.inputs = []) (outputs : node.outputs = [])
    (block : node.block = none) : (graph.allocate id node).RepresentedBy order := by
  have outside := represented.not_mem fresh
  have apart : ∀ target ∈ order, target ≠ id := by
    rintro target listed rfl
    exact outside listed
  have nodes : ∀ target, (graph.allocate id node).nodes target =
      if target = id then some node else graph.nodes target := by
    intro target
    simp only [IRGraph.allocate, Function.update_apply]
  have sameInputs : (graph.allocate id node).inputs = graph.inputs := by
    funext target
    by_cases same : target = id
    · simp [IRGraph.inputs, nodes, same, fresh, inputs]
    · simp [IRGraph.inputs, nodes, same]
  have sameOutputs : (graph.allocate id node).outputs = graph.outputs := by
    funext target
    by_cases same : target = id
    · simp [IRGraph.outputs, nodes, same, fresh, outputs]
    · simp [IRGraph.outputs, nodes, same]
  have sameBlock : (graph.allocate id node).blockOf = graph.blockOf := by
    funext target
    by_cases same : target = id
    · simp [IRGraph.blockOf, nodes, same, fresh, block]
    · simp [IRGraph.blockOf, nodes, same]
  constructor
  · refine represented.list.congr rfl rfl rfl ?_ ?_
    · intro target listed
      exact (LinkedList.elementInit_prev target).trans (if_neg (apart target listed))
    · intro target listed
      exact (LinkedList.elementInit_next target).trans (if_neg (apart target listed))
  · intro target listed
    rw [nodes, if_neg (apart target listed)]
    exact represented.allocated target listed
  · intro target outside allocated
    by_cases same : target = id
    · subst same
      exact LinkedList.elementInit_detached
    · rw [nodes, if_neg same] at allocated
      have detached := represented.detached target outside allocated
      rw [LinkedList.Detached, IRGraph.allocate, LinkedList.elementInit_prev,
        LinkedList.elementInit_next, if_neg same, if_neg same]
      exact detached
  · rw [sameInputs, sameOutputs]
    exact represented.inverse
  · rw [sameBlock]
    exact represented.spans

/-- An instruction leaves the list with its edges, and the ends of its block follow. -/
theorem RepresentedBy.removed (represented : graph.RepresentedBy (front ++ id :: back))
    (code : other.code = graph.code.deleteElement id)
    (spans : ∀ block, other.spans block = graph.leaveSpan (graph.spans block) id)
    (inverse : EdgeInverse other.inputs other.outputs) (absent : other.nodes id = none)
    (blockOf : ∀ target ≠ id, other.blockOf target = graph.blockOf target)
    (allocated : ∀ target ≠ id, (other.nodes target).isSome = (graph.nodes target).isSome) :
    other.RepresentedBy (front ++ back) := by
  have nodup := List.nodup_cons.mp (List.nodup_middle.mp represented.list.nodup)
  have apart : ∀ target ∈ front ++ back, target ≠ id := by
    rintro target listed rfl
    exact nodup.1 listed
  have listed : ∀ target, target ∈ front ++ id :: back ↔ target = id ∨ target ∈ front ++ back := by
    intro target
    simp only [List.mem_append, List.mem_cons, or_left_comm]
  constructor
  · rw [code]
    exact represented.list.deleteElement
  · intro target member
    rw [allocated target (apart target member)]
    exact represented.allocated target ((listed target).mpr (.inr member))
  · intro target outside present
    have notId : target ≠ id := by
      rintro rfl
      rw [absent] at present
      cases present
    have before : target ∉ front ++ id :: back := by
      rw [listed]
      exact not_or.mpr ⟨notId, outside⟩
    rw [allocated target notId] at present
    rw [code]
    exact represented.list.detached_deleteElement (by simp) before
      (represented.detached target before present)
  · exact inverse
  · intro block
    rw [spans]
    apply (delimits_leaveSpan (represented.spans block) represented.list).congr
    intro target member
    exact blockOf target (apart target member)

/-- The invariant, save that the header of one node outside the list may hold anything. -/
structure RepresentedApart (graph : IRGraph) (order : List NodeId) (id : NodeId) : Prop where
  list : graph.code.Represents order
  allocated : ∀ id ∈ order, (graph.nodes id).isSome
  detached : ∀ target, target ∉ order → target ≠ id → (graph.nodes target).isSome →
    graph.code.Detached target
  inverse : EdgeInverse graph.inputs graph.outputs
  spans : ∀ block, (graph.spans block).Delimits order graph.blockOf block
  outside : id ∉ order

theorem RepresentedBy.apart (represented : graph.RepresentedBy order) (outside : id ∉ order) :
    graph.RepresentedApart order id where
  list := represented.list
  allocated := represented.allocated
  detached := fun target outside _ => represented.detached target outside
  inverse := represented.inverse
  spans := represented.spans
  outside := outside

/-- An instruction leaves the list, and its node stays. -/
theorem RepresentedBy.left (represented : graph.RepresentedBy (front ++ id :: back))
    (code : other.code = graph.code.deleteElement id)
    (spans : ∀ block, other.spans block = graph.leaveSpan (graph.spans block) id)
    (nodes : other.nodes = graph.nodes) : other.RepresentedApart (front ++ back) id := by
  have nodup := List.nodup_cons.mp (List.nodup_middle.mp represented.list.nodup)
  constructor
  · rw [code]
    exact represented.list.deleteElement
  · intro target member
    rw [nodes]
    apply represented.allocated
    simp only [List.mem_append, List.mem_cons] at member ⊢
    exact member.imp_right .inr
  · intro target outside notId present
    rw [nodes] at present
    have before : target ∉ front ++ id :: back := by
      simp only [List.mem_append, List.mem_cons, not_or] at outside ⊢
      exact ⟨outside.1, notId, outside.2⟩
    rw [code]
    exact represented.list.detached_deleteElement (by simp) before
      (represented.detached target before present)
  · rw [inputs_congr nodes, outputs_congr nodes]
    exact represented.inverse
  · intro block
    rw [spans]
    apply (delimits_leaveSpan (represented.spans block) represented.list).congr
    intro target member
    rw [blockOf, blockOf, nodes]
  · exact nodup.1

/-- A node outside the list enters it and joins the block of its new neighbour. -/
theorem RepresentedApart.entered (represented : graph.RepresentedApart order id)
    (allocated : (graph.nodes id).isSome) {newOrder : List NodeId}
    (members : ∀ target, target ∈ newOrder ↔ target = id ∨ target ∈ order)
    (list : other.code.Represents newOrder) (detached : ∀ target, target ∉ order → target ≠ id →
      graph.code.Detached target → other.code.Detached target)
    (inputs : other.inputs = graph.inputs) (outputs : other.outputs = graph.outputs)
    (present : ∀ target, (other.nodes target).isSome = (graph.nodes target).isSome)
    (spans : ∀ block, (other.spans block).Delimits newOrder other.blockOf block) :
    other.RepresentedBy newOrder where
  list := list
  allocated := by
    intro target member
    rw [present]
    rcases (members target).mp member with rfl | listed
    · exact allocated
    · exact represented.allocated target listed
  detached := by
    intro target outside isPresent
    rw [members] at outside
    rw [present] at isPresent
    obtain ⟨notId, before⟩ := not_or.mp outside
    exact detached target before notId (represented.detached target before notId isPresent)
  inverse := by rw [inputs, outputs]; exact represented.inverse
  spans := spans

variable {pos : NodeId}

/-- A node enters the list before an instruction. -/
theorem RepresentedApart.insertedBefore
    (represented : graph.RepresentedApart (front ++ pos :: back) id)
    (allocated : (graph.nodes id).isSome) (code : other.code = graph.code.insertBefore id pos)
    (inputs : other.inputs = graph.inputs) (outputs : other.outputs = graph.outputs)
    (present : ∀ target, (other.nodes target).isSome = (graph.nodes target).isSome)
    (blockOf : ∀ target ≠ id, other.blockOf target = graph.blockOf target)
    (joins : other.blockOf id = graph.blockOf pos)
    (spans : ∀ block, other.spans block = (graph.spans block).extendBefore id pos) :
    other.RepresentedBy (front ++ id :: pos :: back) := by
  apply represented.entered allocated _ _ _ inputs outputs present
  · intro block
    rw [spans]
    apply (represented.spans block).insertBefore represented.list.nodup represented.outside _ joins
    rintro target listed
    apply blockOf
    rintro rfl
    exact represented.outside listed
  · intro target
    simp only [List.mem_append, List.mem_cons, or_left_comm]
  · rw [code]
    exact represented.list.insertBefore represented.outside
  · intro target outside notId detached
    rw [code]
    exact represented.list.detached_insertBefore (by simp) outside notId detached

/-- A node enters the list after an instruction. -/
theorem RepresentedApart.insertedAfter
    (represented : graph.RepresentedApart (front ++ pos :: back) id)
    (allocated : (graph.nodes id).isSome) (code : other.code = graph.code.insertAfter id pos)
    (inputs : other.inputs = graph.inputs) (outputs : other.outputs = graph.outputs)
    (present : ∀ target, (other.nodes target).isSome = (graph.nodes target).isSome)
    (blockOf : ∀ target ≠ id, other.blockOf target = graph.blockOf target)
    (joins : other.blockOf id = graph.blockOf pos)
    (spans : ∀ block, other.spans block = (graph.spans block).extendAfter id pos) :
    other.RepresentedBy (front ++ pos :: id :: back) := by
  apply represented.entered allocated _ _ _ inputs outputs present
  · intro block
    rw [spans]
    apply (represented.spans block).insertAfter represented.list.nodup represented.outside _ joins
    rintro target listed
    apply blockOf
    rintro rfl
    exact represented.outside listed
  · intro target
    simp only [List.mem_append, List.mem_cons, or_left_comm]
  · rw [code]
    exact represented.list.insertAfter represented.outside
  · intro target outside notId detached
    rw [code]
    exact represented.list.detached_insertAfter (by simp) outside notId detached

end DaveCC.Backend.IRGraph
