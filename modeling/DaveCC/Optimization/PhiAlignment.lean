import DaveCC.Backend.NodeKinds
import DaveCC.Container.FilteredPositions
import DaveCC.Optimization.BranchSimplification

/-!
# Phi nodes aligned with the predecessors

The inputs of a phi node are the versions of its variable that reach the block from its
predecessors, in their order, without the predecessors that have none. `AddPhiInputs`
establishes this for the phi nodes that it is entered with.
-/

namespace DaveCC.Optimization.FlowGraph

open DaveCC.Backend DaveCC.Backend.IRGraph DaveCC.Container DaveCC.Graph DaveCC.Loop

/-- The version of a variable that reaches a block from a predecessor. -/
abbrev ReachingVersions := BlockId → Symbol → BlockId → Option NodeId

/-- The node is a phi node of the block for the symbol. -/
def PhiOf (graph : IRGraph) (phi : NodeId) (block : BlockId) (symbol : Symbol) : Prop :=
  graph.kind phi = some (.phi, some block, some symbol)

instance (graph : IRGraph) (phi : NodeId) (block : BlockId) (symbol : Symbol) :
    Decidable (PhiOf graph phi block symbol) :=
  inferInstanceAs (Decidable (graph.kind phi = some (.phi, some block, some symbol)))

/-- The node is a variable: an object, a version of one or a phi node. -/
def IsVariable (graph : IRGraph) (id : NodeId) : Prop :=
  ∃ kind, graph.kind id = some kind ∧ kind.1.isVariable

/-- Every phi node has the versions that reach it for its inputs. -/
def PhisAligned (flow : FlowGraph) (versions : ReachingVersions) : Prop :=
  ∀ phi block symbol, PhiOf flow.graph phi block symbol →
    flow.graph.inputs phi = (flow.inEdges block).filterMap (versions block symbol)

/-- A function whose versions are recorded at both ends. -/
structure SSAForm (flow : FlowGraph) (versions : ReachingVersions) : Prop where
  inverse : EdgeInverse flow.graph.inputs flow.graph.outputs
  defined : ∀ block symbol source version, versions block symbol source = some version →
    IsVariable flow.graph version

/-- The versions that `AddPhiInputs` finds. -/
def versionsFrom (flow : FlowGraph) (definedVars : DefinedVars) (fuel : Nat) :
    ReachingVersions :=
  fun block symbol source => (flow.reachingVersion definedVars fuel block symbol source).join

variable {graph final : IRGraph} {fuel : Nat} {inst : Option NodeId} {phis : List NodeId}
  {block : BlockId} {phi : NodeId} {symbol : Symbol}

theorem isOpcode_eq (opcode : IROpcode) :
    isOpcode graph opcode inst = inst.any fun id => (graph.kind id).any fun kind => kind.1 == opcode := by
  cases inst with
  | none => rfl
  | some id =>
    cases node : graph.nodes id with
    | none => simp [isOpcode, IRGraph.kind, node]
    | some node => simp [isOpcode, IRGraph.kind, node, EditedNode.kind]

/-- One iteration of a walk. -/
theorem phiRun_cases (returns : phiRun graph fuel inst = some phis) :
    (isOpcode graph .phi inst = false ∧ phis = []) ∨
      ∃ smaller id rest, fuel = smaller + 1 ∧ inst = some id ∧
        isOpcode graph .phi inst = true ∧ phis = id :: rest ∧
        phiRun graph smaller (graph.code.next id) = some rest := by
  cases inst with
  | none =>
    unfold phiRun at returns
    cases returns
    exact .inl ⟨rfl, rfl⟩
  | some id =>
    unfold phiRun at returns
    simp only at returns
    split at returns
    · next isPhi =>
        cases fuel with
        | zero => cases returns
        | succ fuel =>
          obtain ⟨rest, continues, rfl⟩ := Option.map_eq_some_iff.mp returns
          exact .inr ⟨fuel, id, rest, rfl, rfl, isPhi, rfl, continues⟩
    · next other =>
        cases returns
        exact .inl ⟨Bool.not_eq_true _ ▸ other, rfl⟩

theorem phiRun_unique {other : Nat} {others : List NodeId}
    (returns : phiRun graph fuel inst = some phis)
    (otherReturns : phiRun graph other inst = some others) : phis = others := by
  induction fuel generalizing other inst phis others with
  | zero =>
    rcases phiRun_cases returns with ⟨ends, rfl⟩ | ⟨_, _, _, impossible, _⟩
    · rcases phiRun_cases otherReturns with ⟨_, rfl⟩ | ⟨_, _, _, _, _, isPhi, _⟩
      · rfl
      · rw [ends] at isPhi
        cases isPhi
    · cases impossible
  | succ fuel ih =>
    rcases phiRun_cases returns with ⟨ends, rfl⟩ | ⟨smaller, id, rest, same, rfl, isPhi, rfl, continues⟩
    · rcases phiRun_cases otherReturns with ⟨_, rfl⟩ | ⟨_, _, _, _, _, isPhi, _⟩
      · rfl
      · rw [ends] at isPhi
        cases isPhi
    · rcases phiRun_cases otherReturns with ⟨ends, rfl⟩ | ⟨_, _, others, _, here, _, rfl, others⟩
      · rw [isPhi] at ends
        cases ends
      · cases here
        cases same
        rw [ih continues others]

/-- The rest of a walk from one of its phi nodes. -/
theorem phiRun_suffix (returns : phiRun graph fuel inst = some phis) (met : phi ∈ phis) :
    ∃ smaller rest, phiRun graph smaller (some phi) = some rest ∧ rest.length ≤ phis.length := by
  induction fuel generalizing inst phis with
  | zero =>
    rcases phiRun_cases returns with ⟨_, rfl⟩ | ⟨_, _, _, impossible, _⟩
    · cases met
    · cases impossible
  | succ fuel ih =>
    rcases phiRun_cases returns with ⟨_, rfl⟩ | ⟨smaller, id, rest, same, rfl, _, rfl, continues⟩
    · cases met
    · cases same
      rcases List.mem_cons.mp met with rfl | later
      · exact ⟨fuel + 1, phi :: rest, returns, Nat.le_refl _⟩
      · obtain ⟨smaller, tail, returns, shorter⟩ := ih continues later
        exact ⟨smaller, tail, returns, Nat.le_succ_of_le shorter⟩

/-- A walk that ends meets no phi node twice. -/
theorem phiRun_nodup (returns : phiRun graph fuel inst = some phis) : phis.Nodup := by
  induction fuel generalizing inst phis with
  | zero =>
    rcases phiRun_cases returns with ⟨_, rfl⟩ | ⟨_, _, _, impossible, _⟩
    · exact List.nodup_nil
    · cases impossible
  | succ fuel ih =>
    rcases phiRun_cases returns with ⟨_, rfl⟩ | ⟨smaller, id, rest, same, rfl, _, rfl, continues⟩
    · exact List.nodup_nil
    · cases same
      apply List.nodup_cons.mpr
      constructor
      · intro again
        obtain ⟨smaller, tail, others, shorter⟩ := phiRun_suffix continues again
        rw [← phiRun_unique returns others, List.length_cons] at shorter
        exact Nat.not_succ_le_self _ shorter
      · exact ih continues

theorem headPhis_nodup (returns : headPhis graph fuel block = some phis) : phis.Nodup := by
  obtain ⟨first, -, returns⟩ := Option.bind_eq_some_iff.mp returns
  exact phiRun_nodup returns

theorem isOpcode_congr (same : final.SameKinds graph) (opcode : IROpcode) :
    isOpcode final opcode = isOpcode graph opcode := by
  funext inst
  rw [isOpcode_eq, isOpcode_eq]
  congr 1
  funext id
  rw [IRGraph.kind, IRGraph.kind, same.nodes]

theorem phiRun_congr (same : final.SameKinds graph) : phiRun final fuel inst = phiRun graph fuel inst := by
  induction fuel generalizing inst with
  | zero =>
    unfold phiRun
    rw [isOpcode_congr same]
  | succ fuel ih =>
    unfold phiRun
    rw [isOpcode_congr same, same.code]
    simp only [ih]

theorem headPhis_congr (same : final.SameKinds graph) :
    headPhis final fuel block = headPhis graph fuel block := by
  rw [headPhis, headPhis, isOpcode_congr same, same.spans, same.code]
  simp only [phiRun_congr same]

theorem phiOf_congr (same : final.SameKinds graph) :
    PhiOf final phi block symbol ↔ PhiOf graph phi block symbol := by
  rw [PhiOf, PhiOf, IRGraph.kind, IRGraph.kind, same.nodes]

theorem isVariable_congr {id : NodeId} (same : final.SameKinds graph) :
    IsVariable final id ↔ IsVariable graph id := by
  rw [IsVariable, IsVariable, IRGraph.kind, IRGraph.kind, same.nodes]

/-- The inputs of one node change, and both ends of its edges. -/
structure Rewires (graph final : IRGraph) (user : NodeId) (inputs : List NodeId) : Prop where
  same : final.SameKinds graph
  inputs : final.inputs = Function.update graph.inputs user inputs
  inverse : EdgeInverse graph.inputs graph.outputs → EdgeInverse final.inputs final.outputs

theorem Rewires.refl (graph : IRGraph) (user : NodeId) :
    Rewires graph graph user (graph.inputs user) :=
  ⟨.refl _ graph, (Function.update_eq_self ..).symm, id⟩

theorem Rewires.trans {middle : IRGraph} {user : NodeId} {first second : List NodeId}
    (one : Rewires graph middle user first) (two : Rewires middle final user second) :
    Rewires graph final user second where
  same := two.same.trans one.same
  inputs := by rw [two.inputs, one.inputs, Function.update_idem]
  inverse := two.inverse ∘ one.inverse

/-- A loop over distinct nodes that changes the inputs of each. -/
structure RewiresAll (graph final : IRGraph) (users : List NodeId)
    (change : NodeId → List NodeId → List NodeId) : Prop where
  same : final.SameKinds graph
  inputs : ∀ id, final.inputs id =
    if id ∈ users then change id (graph.inputs id) else graph.inputs id
  inverse : EdgeInverse graph.inputs graph.outputs → EdgeInverse final.inputs final.outputs

theorem rewiresAll_foldlM {step : IRGraph → NodeId → Option IRGraph}
    {change : NodeId → List NodeId → List NodeId}
    (steps : ∀ before user after, before.SameKinds graph → step before user = some after →
      Rewires before after user (change user (before.inputs user))) (distinct : phis.Nodup)
    (returns : phis.foldlM step graph = some final) :
    RewiresAll graph final phis change := by
  apply foldlM_induct (fun front state => RewiresAll graph state front change) _ _ returns
  · intro front item back state next split holds returns
    have rewires := steps state item next holds.same returns
    have fresh : item ∉ front := by
      rw [split] at distinct
      exact fun inside => (List.nodup_append.mp distinct).2.2 item inside item
        List.mem_cons_self rfl
    constructor
    · exact rewires.same.trans holds.same
    · intro id
      rw [rewires.inputs, Function.update_apply]
      by_cases here : id = item
      · subst here
        simp [holds.inputs, fresh]
      · simp [here, holds.inputs]
    · exact rewires.inverse ∘ holds.inverse
  · exact ⟨.refl _ graph, fun id => by simp, id⟩

/-! ## Adding the inputs -/

variable {flow : FlowGraph} {definedVars : DefinedVars}

theorem rewires_irAddInput {user operand : NodeId} {copyType : Bool}
    (returns : graph.irAddInput fuel user operand copyType = some final) :
    Rewires graph final user (graph.inputs user ++ [operand]) where
  same := sameKinds_irAddInput returns
  inputs := (addsInput_irAddInput returns).inputs
  inverse := (addsInput_irAddInput returns).inverse

/-- The versions that a phi node of a block is given. -/
def inputsFound (flow : FlowGraph) (definedVars : DefinedVars) (fuel : Nat) (block : BlockId)
    (graph : IRGraph) (phi : NodeId) : List NodeId :=
  ((graph.kind phi).bind (·.2.2)).elim []
    fun symbol => (flow.inEdges block).filterMap (flow.versionsFrom definedVars fuel block symbol)

theorem inputsFound_of_phiOf {owner : BlockId} (isPhi : PhiOf graph phi owner symbol) :
    flow.inputsFound definedVars fuel block graph phi =
      (flow.inEdges block).filterMap (flow.versionsFrom definedVars fuel block symbol) := by
  rw [inputsFound, show graph.kind phi = _ from isPhi]
  rfl

theorem rewires_addInputsOf
    (returns : flow.addInputsOf definedVars fuel block graph phi = some final) :
    Rewires graph final phi
      (graph.inputs phi ++ flow.inputsFound definedVars fuel block graph phi) := by
  simp only [addInputsOf, Option.bind_eq_bind, Option.bind_eq_some_iff] at returns
  obtain ⟨node, nodeEq, found, foundEq, returns⟩ := returns
  have symbolOf : (graph.kind phi).bind (·.2.2) = some found := by
    rw [IRGraph.kind, nodeEq]
    exact foundEq
  rw [inputsFound, symbolOf, Option.elim_some]
  apply foldlM_induct
    (fun front state => Rewires graph state phi (graph.inputs phi ++
      front.filterMap (flow.versionsFrom definedVars fuel block found))) _ _ returns
  · intro front source back state next split holds returns
    obtain ⟨version, versionEq, returns⟩ := Option.bind_eq_some_iff.mp returns
    have recorded : flow.versionsFrom definedVars fuel block found source = version := by
      rw [versionsFrom, versionEq, Option.join_some]
    cases version with
    | none =>
      cases returns
      simpa [recorded] using holds
    | some version =>
      have added := holds.trans (rewires_irAddInput returns)
      have inputs : state.inputs phi = graph.inputs phi ++
          front.filterMap (flow.versionsFrom definedVars fuel block found) := by
        rw [holds.inputs, Function.update_self]
      rw [inputs, List.append_assoc] at added
      simpa [recorded] using added
  · simpa using Rewires.refl graph phi

variable {version : NodeId}

/-- `FindSSAVar` finds a version that some block defines. -/
theorem findSSAVar_defined {inEdges : BlockId → List BlockId} {visited rest : Finset BlockId}
      (returns : findSSAVar inEdges definedVars symbol fuel block visited = some (some version,
      rest)) : ∃ source, definedVars source symbol = some version := by
  induction fuel generalizing block visited version rest with
  | zero =>
    unfold findSSAVar at returns
    cases here : definedVars block symbol with
    | none =>
      rw [here] at returns
      cases returns
    | some found =>
      rw [here] at returns
      cases returns
      exact ⟨block, here⟩
  | succ fuel ih =>
    unfold findSSAVar at returns
    cases here : definedVars block symbol with
    | some found =>
      rw [here] at returns
      cases returns
      exact ⟨block, here⟩
    | none =>
      rw [here] at returns
      have found := foldlM_induct
        (fun _ (search : Option NodeId × Finset BlockId) =>
          ∀ version, search.1 = some version → ∃ source, definedVars source symbol = some version)
        (by
          intro front id back search next split holds steps
          split_ifs at steps with done seen
          · cases steps
            exact holds
          · cases steps
            intro version recorded
            exact ⟨id, recorded⟩
          · intro version recorded
            obtain ⟨found, after⟩ := next
            cases recorded
            exact ih steps)
        (by
          intro version impossible
          cases impossible)
        returns
      exact found version rfl

theorem versionsFrom_defined {source : BlockId}
    (reaches : flow.versionsFrom definedVars fuel block symbol source = some version) :
    ∃ source, definedVars source symbol = some version := by
  rw [versionsFrom, reachingVersion, Option.join_eq_some_iff, Option.map_eq_some_iff] at reaches
  obtain ⟨⟨found, visited⟩, returns, rfl⟩ := reaches
  exact findSSAVar_defined returns

/-- What `AddPhiInputs` is entered with: the phi nodes stand without inputs at the start
of their blocks, and the recorded versions are variables. -/
structure PhisInserted (flow : FlowGraph) (definedVars : DefinedVars) (fuel : Nat)
    (blocks : List BlockId) : Prop where
  inverse : EdgeInverse flow.graph.inputs flow.graph.outputs
  bare : ∀ phi block symbol, PhiOf flow.graph phi block symbol → flow.graph.inputs phi = []
  listed : ∀ phi block symbol, PhiOf flow.graph phi block symbol → block ∈ blocks
  placed : ∀ block ∈ blocks, ∀ phis, headPhis flow.graph fuel block = some phis →
    ∀ phi, phi ∈ phis ↔ ∃ symbol, PhiOf flow.graph phi block symbol
  distinct : blocks.Nodup
  defined : ∀ block symbol version, definedVars block symbol = some version →
    IsVariable flow.graph version

/-- The state of the last loop of `GeneratorConvertToSSA`. -/
structure PhisFilled (flow filled : FlowGraph) (versions : ReachingVersions)
    (blocks : List BlockId) : Prop where
  same : filled.graph.SameKinds flow.graph
  inEdges : filled.inEdges = flow.inEdges
  inverse : EdgeInverse filled.graph.inputs filled.graph.outputs
  inputs : ∀ phi block symbol, PhiOf flow.graph phi block symbol →
    filled.graph.inputs phi =
      if block ∈ blocks then (flow.inEdges block).filterMap (versions block symbol) else []

variable {blocks : List BlockId} {filled : FlowGraph}

theorem versionsFrom_congr (same : filled.inEdges = flow.inEdges) :
    filled.versionsFrom definedVars fuel = flow.versionsFrom definedVars fuel := by
  funext block symbol source
  rw [versionsFrom, versionsFrom, reachingVersion, reachingVersion, same]

theorem PhisInserted.phisFilled (inserted : flow.PhisInserted definedVars fuel blocks)
    (returns : flow.addAllPhiInputs definedVars fuel blocks = some filled) :
    flow.PhisFilled filled (flow.versionsFrom definedVars fuel) blocks := by
  apply foldlM_induct
    (fun front state => flow.PhisFilled state (flow.versionsFrom definedVars fuel) front)
    _ _ returns
  · intro front block back state next split holds returns
    simp only [addPhiInputs, Option.bind_eq_bind, Option.bind_eq_some_iff] at returns
    obtain ⟨phis, walk, graph, folds, returns⟩ := returns
    cases returns
    have own := inserted.placed block (by simp [split]) phis
      ((headPhis_congr holds.same).symm.trans walk)
    have fresh : block ∉ front := by
      have distinct := inserted.distinct
      rw [split] at distinct
      exact fun inside => (List.nodup_append.mp distinct).2.2 block inside block
        List.mem_cons_self rfl
    have rewires : RewiresAll state.graph graph phis fun phi inputs =>
        inputs ++ state.inputsFound definedVars fuel block state.graph phi := by
      apply rewiresAll_foldlM _ (headPhis_nodup walk) folds
      intro before user after same steps
      have one := rewires_addInputsOf steps
      rwa [inputsFound, IRGraph.kind, same.nodes] at one
    constructor
    · exact rewires.same.trans holds.same
    · exact holds.inEdges
    · exact rewires.inverse holds.inverse
    · intro phi owner symbol isPhi
      have before := holds.inputs phi owner symbol isPhi
      have still := (phiOf_congr holds.same).mpr isPhi
      rw [rewires.inputs phi, inputsFound_of_phiOf still, holds.inEdges,
        versionsFrom_congr holds.inEdges, before]
      by_cases here : owner = block
      · subst here
        simp [fresh, (own phi).mpr ⟨symbol, isPhi⟩]
      · have apart : phi ∉ phis := by
          intro met
          obtain ⟨other, elsewhere⟩ := (own phi).mp met
          rw [PhiOf, show flow.graph.kind phi = _ from isPhi] at elsewhere
          simp [here] at elsewhere
        simp [apart, here]
  · exact ⟨.refl _ _, rfl, inserted.inverse, fun phi block symbol isPhi => by
      simp [inserted.bare phi block symbol isPhi]⟩

/-- `AddPhiInputs` leaves every phi node with the versions that reach it. -/
theorem PhisInserted.aligned (inserted : flow.PhisInserted definedVars fuel blocks)
    (returns : flow.addAllPhiInputs definedVars fuel blocks = some filled) :
    filled.SSAForm (flow.versionsFrom definedVars fuel) ∧
      filled.PhisAligned (flow.versionsFrom definedVars fuel) := by
  have done := inserted.phisFilled returns
  constructor
  · constructor
    · exact done.inverse
    · intro block symbol source version reaches
      obtain ⟨definer, recorded⟩ := versionsFrom_defined reaches
      exact (isVariable_congr done.same).mpr (inserted.defined definer symbol version recorded)
  · intro phi block symbol isPhi
    have isPhi := (phiOf_congr done.same).mp isPhi
    rw [done.inputs phi block symbol isPhi, if_pos (inserted.listed phi block symbol isPhi),
      done.inEdges]

end DaveCC.Optimization.FlowGraph
