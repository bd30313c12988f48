import DaveCC.Optimization.PhiAlignment

/-!
# Phi nodes after branches are simplified

An edge is removed by its position among the predecessors, and so are the operands of
the phi nodes. The operands that remain are those of the remaining predecessors exactly
when the positions of the two have not drifted apart.
-/

namespace DaveCC.Optimization

open DaveCC.Backend DaveCC.Backend.IRGraph DaveCC.Container DaveCC.Graph DaveCC.Loop FlowGraph Sccp

namespace FlowGraph

/-- Where `RemovePhiPredecessor` takes the operands of the removed predecessor: the walk
meets the phi nodes of the block whose operand is in position, and of other phi nodes
only such as have no operand there. -/
def OperandsInPlace (flow : FlowGraph) (versions : ReachingVersions) (fuel : Nat)
    (source target : BlockId) : Prop :=
  source ∈ flow.inEdges target → ∀ phis, headPhis flow.graph fuel target = some phis →
    ∀ phi block symbol, PhiOf flow.graph phi block symbol →
      if phi ∈ phis then
        if block = target then
          InPosition (versions target symbol) (flow.inEdges target) source
        else (flow.graph.inputs phi).length ≤ (flow.inEdges target).idxOf source
      else block = target → versions target symbol source = none

variable {flow after : FlowGraph} {graph final : IRGraph} {versions : ReachingVersions}
  {fuel : Nat} {source target block : BlockId} {phi : NodeId} {symbol : Symbol}

theorem rewiresAll_removePhiPredecessor {index : Nat}
    (returns : removePhiPredecessor graph fuel block index = some final) :
    ∃ phis, headPhis graph fuel block = some phis ∧
      RewiresAll graph final phis fun _ inputs => inputs.eraseIdx index := by
  simp only [removePhiPredecessor, Option.bind_eq_bind, Option.bind_eq_some_iff] at returns
  obtain ⟨phis, walk, folds⟩ := returns
  refine ⟨phis, walk, rewiresAll_foldlM ?_ (headPhis_nodup walk) folds⟩
  intro before user after _ steps
  split_ifs at steps with inside
  · have removes := removesInput_irRemoveInput steps
    exact ⟨sameKinds_irRemoveInput steps, removes.inputs, removes.inverse⟩
  · cases steps
    rw [List.eraseIdx_of_length_le (Nat.not_lt.mp inside)]
    exact .refl before user

theorem removeBranchEdge_cases (returns : flow.removeBranchEdge fuel source target = some after) :
    after.inEdges = Function.update flow.inEdges target ((flow.inEdges target).erase source) ∧
      ((source ∉ flow.inEdges target ∧ after.graph = flow.graph) ∨
        source ∈ flow.inEdges target ∧ ∃ phis, headPhis flow.graph fuel target = some phis ∧
          RewiresAll flow.graph after.graph phis
            fun _ inputs => inputs.eraseIdx ((flow.inEdges target).idxOf source)) := by
  simp only [removeBranchEdge, Option.bind_eq_bind, Option.bind_eq_some_iff,
    Option.some.injEq] at returns
  obtain ⟨graph, removed, rfl⟩ := returns
  refine ⟨rfl, ?_⟩
  rw [removeOperands] at removed
  split_ifs at removed with inside
  · exact .inr ⟨List.idxOf_lt_length_iff.mp inside, rewiresAll_removePhiPredecessor removed⟩
  · cases removed
    exact .inl ⟨fun listed => inside (List.idxOf_lt_length_iff.mpr listed), rfl⟩

theorem sameKinds_removeBranchEdge
    (returns : flow.removeBranchEdge fuel source target = some after) :
    after.graph.SameKinds flow.graph := by
  rcases (removeBranchEdge_cases returns).2 with ⟨_, same⟩ | ⟨_, _, _, rewires⟩
  · rw [same]
    exact .refl _ _
  · exact rewires.same

theorem SSAForm.removeBranchEdge (form : flow.SSAForm versions)
    (returns : flow.removeBranchEdge fuel source target = some after) :
    after.SSAForm versions where
  inverse := by
    rcases (removeBranchEdge_cases returns).2 with ⟨_, same⟩ | ⟨_, _, _, rewires⟩
    · rw [same]
      exact form.inverse
    · exact rewires.inverse form.inverse
  defined := by
    intro block symbol source version reaches
    apply (isVariable_congr (sameKinds_removeBranchEdge returns)).mpr
    exact form.defined block symbol source version reaches

/-- One phi node after the removal of an edge. -/
theorem inputs_removeBranchEdge_iff (aligned : flow.PhisAligned versions)
    (listed : source ∈ flow.inEdges target) {phis : List NodeId}
    (rewires : RewiresAll flow.graph after.graph phis fun _ inputs => inputs.eraseIdx
      ((flow.inEdges target).idxOf source))
    (inEdges : after.inEdges = Function.update flow.inEdges target ((flow.inEdges target).erase
      source)) (isPhi : PhiOf flow.graph phi block symbol) :
    after.graph.inputs phi = (after.inEdges block).filterMap (versions block symbol) ↔
      if phi ∈ phis then
        if block = target then
          InPosition (versions target symbol) (flow.inEdges target) source
        else (flow.graph.inputs phi).length ≤ (flow.inEdges target).idxOf source
      else block = target → versions target symbol source = none := by
  have before := aligned phi block symbol isPhi
  rw [rewires.inputs, inEdges, Function.update_apply, before]
  by_cases met : phi ∈ phis
  · rw [if_pos met, if_pos met]
    by_cases here : block = target
    · subst here
      rw [if_pos rfl, if_pos rfl]
      exact eraseIdx_filterMap_iff listed
    · rw [if_neg here, if_neg here]
      exact List.eraseIdx_eq_self
  · rw [if_neg met, if_neg met]
    by_cases here : block = target
    · subst here
      rw [if_pos rfl, filterMap_eq_filterMap_erase_iff listed]
      simp
    · simp [here]

/-- The removal of an edge keeps the phi nodes aligned exactly when the operands are in
place. -/
theorem aligned_removeBranchEdge_iff (aligned : flow.PhisAligned versions)
    (returns : flow.removeBranchEdge fuel source target = some after) :
    after.PhisAligned versions ↔ flow.OperandsInPlace versions fuel source target := by
  have same := sameKinds_removeBranchEdge returns
  rcases removeBranchEdge_cases returns with ⟨inEdges, ⟨outside, graph⟩ | ⟨listed, phis, walk, rewires⟩⟩
  · rw [List.erase_of_not_mem outside, Function.update_eq_self] at inEdges
    constructor
    · intro _ listed
      exact absurd listed outside
    · intro _ phi block symbol isPhi
      rw [graph] at isPhi
      rw [graph, inEdges]
      exact aligned phi block symbol isPhi
  · constructor
    · intro kept _ others walked phi block symbol isPhi
      rw [walk, Option.some.injEq] at walked
      subst walked
      apply (inputs_removeBranchEdge_iff aligned listed rewires inEdges isPhi).mp
      exact kept phi block symbol ((phiOf_congr same).mpr isPhi)
    · intro inPlace phi block symbol isPhi
      have isPhi := (phiOf_congr same).mp isPhi
      apply (inputs_removeBranchEdge_iff aligned listed rewires inEdges isPhi).mpr
      exact inPlace listed phis walk phi block symbol isPhi

/-- The function without an instruction. -/
abbrev without (flow : FlowGraph) (block : BlockId) (inst : NodeId) : FlowGraph :=
  { flow with graph := flow.graph.basicBlockRemoveInstruction block inst }

variable {inst version : NodeId} {owner : BlockId}

theorem isVariable_without (other : ¬IsVariable graph inst) (isVariable : IsVariable graph version) :
    IsVariable (graph.basicBlockRemoveInstruction block inst) version := by
  have apart : version ≠ inst := by
    intro same
    subst same
    exact other isVariable
  rw [IsVariable, kind_basicBlockRemoveInstruction apart]
  exact isVariable

theorem phiOf_without (isPhi : PhiOf (graph.basicBlockRemoveInstruction block inst) phi owner symbol) :
    phi ≠ inst ∧ PhiOf graph phi owner symbol := by
  have apart : phi ≠ inst := by
    intro same
    subst same
    rw [PhiOf, kind_basicBlockRemoveInstruction_self] at isPhi
    cases isPhi
  rw [PhiOf, kind_basicBlockRemoveInstruction apart] at isPhi
  exact ⟨apart, isPhi⟩

theorem SSAForm.without (form : flow.SSAForm versions) (other : ¬IsVariable flow.graph inst) :
    (flow.without block inst).SSAForm versions where
  inverse := inverse_basicBlockRemoveInstruction form.inverse
  defined := by
    intro owner symbol source version reaches
    exact isVariable_without other (form.defined owner symbol source version reaches)

theorem PhisAligned.without (aligned : flow.PhisAligned versions) (form : flow.SSAForm versions)
    (other : ¬IsVariable flow.graph inst) : (flow.without block inst).PhisAligned versions := by
  intro phi owner symbol isPhi
  obtain ⟨apart, isPhi⟩ := phiOf_without isPhi
  have inputs := aligned phi owner symbol isPhi
  have unused : inst ∉ flow.graph.inputs phi := by
    rw [inputs]
    intro used
    obtain ⟨source, _, reaches⟩ := List.mem_filterMap.mp used
    exact other (form.defined owner symbol source inst reaches)
  exact (inputs_basicBlockRemoveInstruction apart unused).trans inputs

theorem allM_eq_true {test : NodeId → Option Bool} {ids : List NodeId}
    (all : ids.allM test = some true) : ∀ id ∈ ids, test id = some true := by
  induction ids with
  | nil =>
    intro id listed
    cases listed
  | cons first rest ih =>
    obtain ⟨passes, tested, all⟩ := Option.bind_eq_some_iff.mp all
    cases passes with
    | false => cases all
    | true =>
      intro id listed
      rcases List.mem_cons.mp listed with rfl | later
      · exact tested
      · exact ih all id later

/-- A store to a version that a phi node uses is not dead. -/
theorem isDeadLocalStore_ne_true (isPhi : PhiOf graph phi owner symbol)
    (used : phi ∈ graph.outputs version) (stores : (graph.inputs inst).head? = some version) :
    graph.isDeadLocalStore fuel inst ≠ some true := by
  intro dead
  obtain ⟨node, nodeEq, dead⟩ := Option.bind_eq_some_iff.mp dead
  have inputs : node.inputs.head? = some version := by
    rw [IRGraph.inputs, nodeEq] at stores
    exact stores
  split at dead
  · cases dead
  split at dead
  · cases dead
  next dest rest shape =>
    rw [shape, List.head?_cons, Option.some.injEq] at inputs
    subst inputs
    obtain ⟨storage, storageEq, dead⟩ := Option.bind_eq_some_iff.mp dead
    split at dead
    · cases dead
    split at dead
    · cases dead
    obtain ⟨incDec, _, dead⟩ := Option.bind_eq_some_iff.mp dead
    split at dead
    · cases dead
    rw [IRGraph.outputs, storageEq] at used
    have tested := allM_eq_true dead phi used
    obtain ⟨user, userEq, only⟩ := Option.map_eq_some_iff.mp tested
    rw [PhiOf, IRGraph.kind, userEq, Option.map_some, Option.some.injEq, EditedNode.kind,
      Prod.mk.injEq] at isPhi
    rw [isPhi.1] at only
    cases only

/-- The deletion of an instruction that is not a variable. -/
def Deletes (graph later : IRGraph) : Prop :=
  ∃ block inst, ¬IsVariable graph inst ∧ later = graph.basicBlockRemoveInstruction block inst

/-- Every version that reaches a phi node along an edge is an operand of it, and no
store to it is dead, also after other deletions. -/
def StoresKept (flow : FlowGraph) (versions : ReachingVersions) : Prop :=
  ∀ phi block symbol source version, PhiOf flow.graph phi block symbol →
    source ∈ flow.inEdges block → versions block symbol source = some version →
    version ∈ flow.graph.inputs phi ∧
      ∀ later, Relation.ReflTransGen Deletes flow.graph later →
        ∀ fuel store, (later.inputs store).head? = some version →
          later.isDeadLocalStore fuel store ≠ some true

theorem PhisAligned.storesKept (aligned : flow.PhisAligned versions)
    (form : flow.SSAForm versions) : flow.StoresKept versions := by
  intro phi block symbol source version isPhi survives reaches
  have used : version ∈ flow.graph.inputs phi := by
    rw [aligned phi block symbol isPhi]
    exact List.mem_filterMap.mpr ⟨source, survives, reaches⟩
  refine ⟨used, ?_⟩
  intro later run
  have kept : EdgeInverse later.inputs later.outputs ∧ PhiOf later phi block symbol ∧
      IsVariable later version ∧ version ∈ later.inputs phi := by
    induction run with
    | refl => exact ⟨form.inverse, isPhi, form.defined block symbol source version reaches, used⟩
    | tail _ deletes ih =>
      obtain ⟨inverse, isPhi, isVariable, used⟩ := ih
      obtain ⟨owner, inst, other, rfl⟩ := deletes
      have notPhi : phi ≠ inst := by
        rintro rfl
        exact other ⟨_, isPhi, rfl⟩
      have notVersion : version ≠ inst := by
        rintro rfl
        exact other isVariable
      refine ⟨inverse_basicBlockRemoveInstruction inverse, ?_, isVariable_without other isVariable,
        (mem_inputs_basicBlockRemoveInstruction notPhi notVersion).mpr used⟩
      rw [PhiOf, kind_basicBlockRemoveInstruction notPhi]
      exact isPhi
  obtain ⟨inverse, isPhi, _, used⟩ := kept
  intro fuel store stores
  exact isDeadLocalStore_ne_true isPhi (inverse.mem_iff.mp used) stores

end FlowGraph

/-! ## Runs of `SimplifyBranches` -/

namespace EdgeRemoval

/-- The phi nodes had the operands of the predecessors before the removal and have those
of the other predecessors after it. -/
def LosesOperands (removal : EdgeRemoval) (versions : ReachingVersions) (fuel : Nat) : Prop :=
  removal.before.PhisAligned versions ∧
    ∀ after, removal.before.removeBranchEdge fuel removal.source removal.target = some after →
      after.PhisAligned versions

def InPlace (removal : EdgeRemoval) (versions : ReachingVersions) (fuel : Nat) : Prop :=
  removal.before.OperandsInPlace versions fuel removal.source removal.target

end EdgeRemoval

namespace BranchPass

variable {pass next : BranchPass} {versions : ReachingVersions} {fuel : Nat}
  {source target block taken : BlockId} {branch label : NodeId} {take : Bool}

/-- What a run has done to the phi nodes. -/
structure Accounts (pass : BranchPass) (versions : ReachingVersions) (fuel : Nat) : Prop where
  form : pass.toFlowGraph.SSAForm versions
  loses_iff : (∀ removal ∈ pass.removals, removal.LosesOperands versions fuel) ↔
    ∀ removal ∈ pass.removals, removal.InPlace versions fuel
  aligned : (∀ removal ∈ pass.removals, removal.InPlace versions fuel) →
    pass.toFlowGraph.PhisAligned versions

section

variable (accounts : pass.Accounts versions fuel)

include accounts

/-- The numbers of a run do not matter. -/
theorem Accounts.congr (same : next.toFlowGraph = pass.toFlowGraph)
    (removals : next.removals = pass.removals) :
    next.Accounts versions fuel where
  form := by rw [same]; exact accounts.form
  loses_iff := by rw [removals]; exact accounts.loses_iff
  aligned := by rw [same, removals]; exact accounts.aligned

theorem Accounts.removeEdge (returns : pass.removeEdge fuel source target = some next) :
    next.Accounts versions fuel ∧ next.graph.SameKinds pass.graph := by
  obtain ⟨after, removed, rfl⟩ := Option.map_eq_some_iff.mp returns
  have last (aligned : pass.toFlowGraph.PhisAligned versions) :
      EdgeRemoval.LosesOperands ⟨pass.toFlowGraph, source, target⟩ versions fuel ↔
        EdgeRemoval.InPlace ⟨pass.toFlowGraph, source, target⟩ versions fuel := by
    constructor
    · rintro ⟨-, exact_after⟩
      exact (aligned_removeBranchEdge_iff aligned removed).mp (exact_after after removed)
    · intro inPlace
      refine ⟨aligned, fun after removed => ?_⟩
      exact (aligned_removeBranchEdge_iff aligned removed).mpr inPlace
  refine ⟨⟨accounts.form.removeBranchEdge removed, ?_, ?_⟩, sameKinds_removeBranchEdge removed⟩
  · simp only [List.forall_mem_append, List.forall_mem_singleton]
    constructor
    · rintro ⟨earlier, loses⟩
      have inPlace := accounts.loses_iff.mp earlier
      exact ⟨inPlace, (last (accounts.aligned inPlace)).mp loses⟩
    · rintro ⟨earlier, inPlace⟩
      exact ⟨accounts.loses_iff.mpr earlier, (last (accounts.aligned earlier)).mpr inPlace⟩
  · simp only [List.forall_mem_append, List.forall_mem_singleton]
    rintro ⟨earlier, inPlace⟩
    exact (aligned_removeBranchEdge_iff (accounts.aligned earlier) removed).mpr inPlace

theorem Accounts.removeBranch (other : ¬IsVariable pass.graph branch) :
    (pass.removeBranch block branch).Accounts versions fuel where
  form := accounts.form.without other
  loses_iff := accounts.loses_iff
  aligned := fun inPlace => (accounts.aligned inPlace).without accounts.form other

theorem Accounts.removeUntaken (returns : pass.removeUntaken fuel block taken take = some next) :
    next.Accounts versions fuel ∧ next.graph.SameKinds pass.graph := by
  obtain ⟨state, loop, rfl⟩ := Option.map_eq_some_iff.mp returns
  have done := runWhile_induct
    (fun (state : BranchPass × Nat) =>
      state.1.Accounts versions fuel ∧ state.1.graph.SameKinds pass.graph)
    (by
      rintro ⟨middle, edge⟩ next ⟨accounts, same⟩ _ steps
      obtain ⟨successor, _, steps⟩ := Option.bind_eq_some_iff.mp steps
      split_ifs at steps
      · cases steps
        exact ⟨accounts, same⟩
      · obtain ⟨after, removed, rfl⟩ := Option.map_eq_some_iff.mp steps
        obtain ⟨accounts, kinds⟩ := accounts.removeEdge removed
        exact ⟨accounts, kinds.trans same⟩)
    ⟨accounts, .refl _ _⟩ loop
  exact done.1

theorem Accounts.simplifyConstant (other : ¬IsVariable pass.graph branch)
    (returns : pass.simplifyConstant fuel block branch label take = some next) :
    next.Accounts versions fuel := by
  rw [BranchPass.simplifyConstant] at returns
  split at returns
  · cases returns
    cases take with
    | true => exact accounts.congr rfl rfl
    | false => exact (accounts.removeBranch other).congr rfl rfl
  · obtain ⟨taken, _, returns⟩ := Option.bind_eq_some_iff.mp returns
    obtain ⟨middle, untaken, returns⟩ := Option.bind_eq_some_iff.mp returns
    obtain ⟨accounts, same⟩ := accounts.removeUntaken untaken
    cases returns
    cases take with
    | true => exact accounts.congr rfl rfl
    | false =>
      rw [← isVariable_congr same] at other
      exact (accounts.removeBranch other).congr rfl rfl

end

theorem not_isVariable_of_isConditionalBranch {graph : IRGraph} {node : EditedNode}
    (nodeEq : graph.nodes branch = some node) (conditional : node.opcode.isConditionalBranch) :
    ¬IsVariable graph branch := by
  rintro ⟨kind, kindEq, isVariable⟩
  rw [IRGraph.kind, nodeEq, Option.map_some, Option.some.injEq] at kindEq
  subst kindEq
  simp only [IROpcode.isConditionalBranch, Bool.or_eq_true, beq_iff_eq] at conditional
  rcases conditional with opcode | opcode
  · rw [EditedNode.kind, opcode] at isVariable
    cases isVariable
  · rw [EditedNode.kind, opcode] at isVariable
    cases isVariable

theorem Accounts.simplifyBranch {context : SCCPContext} (accounts : pass.Accounts versions fuel)
    (returns : simplifyBranch context fuel pass block = some next) :
    next.Accounts versions fuel := by
  rw [BranchPass.simplifyBranch] at returns
  split at returns
  · cases returns
    exact accounts
  split at returns
  · cases returns
    exact accounts
  next branch _ =>
    obtain ⟨node, nodeEq, returns⟩ := Option.bind_eq_some_iff.mp returns
    split at returns
    · cases returns
      exact accounts
    next conditional =>
      have other := not_isVariable_of_isConditionalBranch nodeEq (by simpa using conditional)
      split at returns
      · split at returns
        · exact accounts.simplifyConstant other returns
        · cases returns
          exact accounts
      · cases returns
        exact accounts

end BranchPass

theorem accounts_simplifyBranches {context : SCCPContext} {fuel : Nat} {flow : FlowGraph}
    {blocks : List BlockId} {pass : BranchPass} {versions : ReachingVersions}
    (form : flow.SSAForm versions) (aligned : flow.PhisAligned versions)
    (returns : simplifyBranches context fuel flow blocks = some pass) :
    pass.Accounts versions fuel := by
  apply foldlM_induct (fun _ pass => pass.Accounts versions fuel) _ _ returns
  · intro front block back state next _ accounts steps
    exact accounts.simplifyBranch steps
  · exact ⟨form, by simp, fun _ => aligned⟩

/-- Simplifying branches after `AddPhiInputs`: every phi node loses the operands of the
removed predecessors and no others, and the stores to its operands stay, exactly when
every edge is removed with the operands in place. -/
theorem simplifyBranches_losesOperands_iff {context : SCCPContext} {fuel bound : Nat}
    {flow filled : FlowGraph} {definedVars : DefinedVars} {blocks : List BlockId}
    {pass : BranchPass} (inserted : flow.PhisInserted definedVars fuel blocks)
    (fills : flow.addAllPhiInputs definedVars fuel blocks = some filled)
    (returns : simplifyBranches context bound filled blocks = some pass) :
    (∀ removal ∈ pass.removals, removal.LosesOperands (flow.versionsFrom definedVars fuel) bound) ∧
      pass.StoresKept (flow.versionsFrom definedVars fuel) ↔
    ∀ removal ∈ pass.removals,
      removal.InPlace (flow.versionsFrom definedVars fuel) bound := by
  obtain ⟨form, aligned⟩ := inserted.aligned fills
  have accounts := accounts_simplifyBranches form aligned returns
  constructor
  · rintro ⟨loses, -⟩
    exact accounts.loses_iff.mp loses
  · intro inPlace
    exact ⟨accounts.loses_iff.mpr inPlace, (accounts.aligned inPlace).storesKept accounts.form⟩

/-- A local of type `int`. -/
def optionalLocal : Symbol where
  id := 0
  type := { declarator := .primitive, type := kTypeInt, size := 4 }
  isLocal := true

/-- `int x; if (c) x = c; return x;` after renaming. -/
def optionalStore : FlowGraph where
  graph :=
    { nodes := fun
        | 0 => some { opcode := .const32, outputs := [1, 3], block := some 0 }
        | 1 => some { opcode := .bfalse, inputs := [0, 4], block := some 0 }
        | 2 => some { opcode := .ssavar, outputs := [3], block := some 1, symbol := optionalLocal }
        | 3 => some { opcode := .store32, inputs := [2, 0], block := some 1, flags := kIRVarDef,
                      var := optionalLocal }
        | 4 => some { opcode := .label, outputs := [1], block := some 2 }
        | 5 => some { opcode := .phi, outputs := [6], block := some 2, symbol := optionalLocal,
                      flags := kIRVarDef, var := optionalLocal }
        | 6 => some { opcode := .load32, inputs := [5], outputs := [7], block := some 2,
                      flags := kIRVarUse, var := optionalLocal }
        | 7 => some { opcode := .ret, inputs := [6], block := some 2 }
        | _ => none
      code :=
        { first := some 0
          last := some 7
          length := 8
          prev := fun
            | 1 => some 0 | 2 => some 1 | 3 => some 2 | 5 => some 3 | 4 => some 5 | 6 => some 4
            | 7 => some 6 | _ => none
          next := fun
            | 0 => some 1 | 1 => some 2 | 2 => some 3 | 3 => some 5 | 5 => some 4 | 4 => some 6
            | 6 => some 7 | _ => none }
      spans := fun
        | 0 => { code := some 0, endCode := some 1 }
        | 1 => { code := some 2, endCode := some 3 }
        | 2 => { code := some 5, endCode := some 7 }
        | _ => {} }
  inEdges
    | 1 => [0] | 2 => [0, 1] | 3 => [2] | _ => []
  outEdges
    | 0 => [1, 2] | 1 => [2] | 2 => [3] | _ => []

def optionalVars : DefinedVars := fun block symbol =>
  if symbol = optionalLocal then
    if block = 1 then some 2 else if block = 2 then some 5 else none
  else none

/-- The analysis found the value of the condition. -/
def optionalContext (value : BitVec 64) : SCCPContext where
  gen := { nodes := fun _ => { opcode := .nop }, basicBlocks := [], entryBlock := 0 }
  values := fun id => if id = 0 then .constant value else .overdefined
  valueCount := 8
  executableBlocks := {0, 1, 2}

theorem phiOf_optionalStore {phi : NodeId} {block : BlockId} {symbol : Symbol}
    (isPhi : PhiOf optionalStore.graph phi block symbol) :
    phi = 5 ∧ block = 2 ∧ symbol = optionalLocal := by
  have opcode : (optionalStore.graph.kind phi).map Prod.fst = some .phi :=
    congrArg (·.map Prod.fst) isPhi
  match phi with
  | 0 | 1 | 2 | 3 | 4 | 6 | 7 => exact absurd opcode (by decide)
  | 5 =>
    cases isPhi
    exact ⟨rfl, rfl, rfl⟩
  | _ + 8 => cases isPhi

theorem phisInserted_optionalStore :
    optionalStore.PhisInserted optionalVars 10 [0, 1, 2, 3] := by
  constructor
  · apply EdgeInverse.of_bounded 8 (by decide) (by decide)
    intro id outside
    match id with
    | 0 | 1 | 2 | 3 | 4 | 5 | 6 | 7 => exact absurd outside (by decide)
    | _ + 8 => exact ⟨rfl, rfl⟩
  · intro phi block symbol isPhi
    obtain ⟨rfl, -, -⟩ := phiOf_optionalStore isPhi
    rfl
  · intro phi block symbol isPhi
    obtain ⟨-, rfl, -⟩ := phiOf_optionalStore isPhi
    decide
  · intro block listed phis walk phi
    have ownPhis : ∀ block ∈ [0, 1, 2, 3], headPhis optionalStore.graph 10 block =
        some (if block = 2 then [5] else []) := by decide
    rw [ownPhis block listed, Option.some.injEq] at walk
    subst walk
    constructor
    · intro met
      split at met
      · next here =>
          subst here
          cases List.mem_singleton.mp met
          exact ⟨optionalLocal, rfl⟩
      · cases met
    · rintro ⟨symbol, isPhi⟩
      obtain ⟨rfl, rfl, -⟩ := phiOf_optionalStore isPhi
      decide
  · decide
  · intro block symbol version defines
    rw [optionalVars] at defines
    split_ifs at defines <;> cases defines
    · exact ⟨_, rfl, rfl⟩
    · exact ⟨_, rfl, rfl⟩

/-- When the store is not reached, the edge to it is removed, and the phi node of the other
block loses nothing. -/
theorem simplifyBranches_losesOperands_optionalStore :
    ∃ filled pass, optionalStore.addAllPhiInputs optionalVars 10 [0, 1, 2, 3] = some filled ∧
      simplifyBranches (optionalContext 0) 10 filled [0, 1, 2, 3] = some pass ∧
      pass.removals.length = 1 ∧
      (∀ removal ∈ pass.removals,
        removal.LosesOperands (optionalStore.versionsFrom optionalVars 10) 10) ∧
      pass.StoresKept (optionalStore.versionsFrom optionalVars 10) := by
  refine ⟨_, _, rfl, rfl, rfl, ?_⟩
  refine (simplifyBranches_losesOperands_iff phisInserted_optionalStore
    (show optionalStore.addAllPhiInputs optionalVars 10 [0, 1, 2, 3] = some _ from rfl)
    (show simplifyBranches (optionalContext 0) 10 _ [0, 1, 2, 3] = some _ from rfl)).mpr ?_
  intro removal removed
  cases List.mem_singleton.mp removed
  intro _ phis walk phi block symbol isPhi
  cases walk
  have isPhi := (phiOf_congr (phisInserted_optionalStore.phisFilled rfl).same).mp isPhi
  obtain ⟨-, rfl, -⟩ := phiOf_optionalStore isPhi
  rw [if_neg List.not_mem_nil]
  intro impossible
  cases impossible

/-- Without the store the version of its path still reaches the phi node, which has lost
the operand, and the store is dead. -/
theorem not_simplifyBranches_storesKept :
    optionalStore.PhisInserted optionalVars 10 [0, 1, 2, 3] ∧
      ∃ filled pass, optionalStore.addAllPhiInputs optionalVars 10 [0, 1, 2, 3] = some filled ∧
        simplifyBranches (optionalContext 1) 10 filled [0, 1, 2, 3] = some pass ∧
        1 ∈ pass.inEdges 2 ∧
        optionalStore.versionsFrom optionalVars 10 2 optionalLocal 1 = some 2 ∧
        2 ∉ pass.graph.inputs 5 ∧
        pass.graph.isDeadLocalStore 10 3 = some true ∧
        ¬pass.StoresKept (optionalStore.versionsFrom optionalVars 10) := by
  refine ⟨phisInserted_optionalStore, _, _, rfl, rfl, by decide, by decide, by decide, by decide, ?_⟩
  intro kept
  have used := (kept 5 2 optionalLocal 1 2 (by decide) (by decide) (by decide)).1
  exact absurd used (by decide)

end DaveCC.Optimization
