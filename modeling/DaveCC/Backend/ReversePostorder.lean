import Mathlib.Algebra.Order.BigOperators.Group.Finset
import DaveCC.Backend.ControlFlowGraph

/-!
# The depth-first search

`ComputeReversePostorder` returns, and its postorder lists the reachable blocks, each
once, in such a way that every block but the entry has a predecessor that is finished
after it. The blocks already finished, followed by those expanded on the work stack from
the top down, are the list whose order the search never changes.
-/

namespace DaveCC.Backend

open DaveCC.Graph DaveCC.Loop

namespace PostorderSearch

def isExpanded (item : Nat) : Bool := item &&& 1 != 0

theorem shiftRight_pending (id : BlockId) : (id <<< 1) >>> 1 = id :=
  Nat.shiftLeft_shiftRight id 1

theorem isExpanded_pending (id : BlockId) : isExpanded (id <<< 1) = false := by
  simp [isExpanded]

theorem expanded_eq (id : Nat) : id <<< 1 ||| 1 = 2 * id + 1 := by
  rw [← Nat.shiftLeft_add_eq_or_of_lt (by decide), Nat.shiftLeft_eq]
  omega

theorem shiftRight_expanded (id : Nat) : (id <<< 1 ||| 1) >>> 1 = id := by
  rw [expanded_eq, Nat.shiftRight_eq_div_pow]
  omega

theorem isExpanded_expanded (id : Nat) : isExpanded (id <<< 1 ||| 1) = true := by
  rw [expanded_eq, isExpanded, Nat.and_one_is_mod]
  have odd : (2 * id + 1) % 2 = 1 := by omega
  rw [odd]
  rfl

theorem eq_pending {item : Nat} (pending : isExpanded item = false) :
    item = (item >>> 1) <<< 1 := by
  simp only [isExpanded, Nat.and_one_is_mod, bne_eq_false_iff_eq] at pending
  omega

/-- The expanded blocks of a work stack, from the top down. -/
def expandedBlocks (work : List Nat) : List BlockId :=
  (work.filter isExpanded).map (· >>> 1)

/-- Every item of the stack is the entry or has an expanded predecessor below it. -/
def IsSupported (gen : Generator) : List Nat → Prop
  | [] => True
  | item :: work =>
    (item >>> 1 = gen.entryBlock ∨
      ∃ predecessor ∈ expandedBlocks work, gen.Edge predecessor (item >>> 1)) ∧
    IsSupported gen work

@[simp] theorem expandedBlocks_cons_pending (id : BlockId) (work : List Nat) :
    expandedBlocks ((id <<< 1) :: work) = expandedBlocks work := by
  simp [expandedBlocks, isExpanded_pending]

@[simp] theorem expandedBlocks_cons_expanded (id : BlockId) (work : List Nat) :
    expandedBlocks ((id <<< 1 ||| 1) :: work) = id :: expandedBlocks work := by
  simp [expandedBlocks, isExpanded_expanded, shiftRight_expanded]

/-- The successors that one expansion pushes on the stack. -/
def pushed (reachable : Finset BlockId) (successors : List BlockId) : List Nat :=
  (successors.filter fun successor => successor ∉ reachable).map (· <<< 1)

theorem foldl_push_eq (reachable : Finset BlockId) (successors : List BlockId) (work : List Nat) :
    successors.reverse.foldl
      (fun work successor => if successor ∈ reachable then work else (successor <<< 1) :: work)
      work = pushed reachable successors ++ work := by
  rw [List.foldl_reverse]
  induction successors with
  | nil => rfl
  | cons successor successors push =>
    rw [List.foldr_cons, push]
    by_cases member : successor ∈ reachable
    · simp [member, pushed]
    · simp [member, pushed]

theorem expandedBlocks_pushed (reachable : Finset BlockId) (successors : List BlockId)
    (work : List Nat) :
    expandedBlocks (pushed reachable successors ++ work) = expandedBlocks work := by
  unfold pushed
  induction successors.filter fun successor => successor ∉ reachable with
  | nil => rfl
  | cons successor _ same =>
    rw [List.map_cons, List.cons_append, expandedBlocks_cons_pending, same]

variable {reachable : Finset BlockId} {work : List Nat}

theorem isSupported_pushed {gen : Generator} {successors : List BlockId}
    (holds : IsSupported gen work) (supported : ∀ successor ∈ successors, ∃ predecessor ∈
      expandedBlocks work, gen.Edge predecessor successor) :
    IsSupported gen (pushed reachable successors ++ work) := by
  induction successors with
  | nil => exact holds
  | cons successor successors supportRest =>
    have rest := supportRest fun other member => supported other (List.mem_cons_of_mem _ member)
    by_cases member : successor ∈ reachable
    · simpa only [pushed, List.filter_cons, member, not_true_eq_false, decide_false,
        Bool.false_eq_true, if_false] using rest
    · simp only [pushed, List.filter_cons, member, not_false_eq_true, decide_true, if_true,
        List.map_cons, List.cons_append]
      refine ⟨Or.inr ?_, rest⟩
      rw [shiftRight_pending, ← pushed, expandedBlocks_pushed]
      exact supported successor List.mem_cons_self

/-! ## The invariant -/

/-- The blocks the search has entered: the finished ones in the order they were finished,
then those still on the stack from the top down. -/
def entered (search : PostorderSearch) : List BlockId :=
  search.postorder ++ expandedBlocks search.work

structure Invariant (graph : ControlFlowGraph) (search : PostorderSearch) : Prop where
  nodup : search.entered.Nodup
  mem_reachable_iff : ∀ id, id ∈ search.reachable ↔ id ∈ search.entered
  hasLater : HasLater graph.gen.Edge graph.entry search.entered
  supported : IsSupported graph.gen search.work
  reached : ∀ item ∈ search.work, graph.Reachable (item >>> 1)
  enteredReached : ∀ id ∈ search.entered, graph.Reachable id
  closed : ∀ source target, source ∈ search.entered → graph.gen.Edge source target →
    target ∈ search.entered ∨ target <<< 1 ∈ search.work
  started : graph.entry ∈ search.entered ∨ graph.entry <<< 1 ∈ search.work

/-- What the blocks not yet entered may still push. -/
def unpushed (graph : ControlFlowGraph) (reachable : Finset BlockId) : Nat :=
  ∑ id ∈ Finset.range graph.size \ reachable, ((graph.gen.block id).outEdges.length + 1)

variable {id : BlockId}

theorem unpushed_insert {graph : ControlFlowGraph} (inRange : id < graph.size)
    (fresh : id ∉ reachable) :
    unpushed graph (insert id reachable) + ((graph.gen.block id).outEdges.length + 1) =
      unpushed graph reachable := by
  rw [unpushed, unpushed, Finset.sdiff_insert]
  exact Finset.sum_erase_add _ _ (Finset.mem_sdiff.mpr ⟨Finset.mem_range.mpr inRange, fresh⟩)

/-- The work left: the items on the stack and those that may still be pushed. -/
def remaining (graph : ControlFlowGraph) (search : PostorderSearch) : Nat :=
  search.work.length + unpushed graph search.reachable

variable {graph : ControlFlowGraph} {search : PostorderSearch}

theorem invariant_start (graph : ControlFlowGraph) :
    Invariant graph { work := [graph.entry <<< 1], postorder := [], reachable := ∅ } := by
  have same : entered { work := [graph.entry <<< 1], postorder := [], reachable := ∅ } = [] := by
    simp only [entered, expandedBlocks_cons_pending, List.nil_append]
    rfl
  refine { nodup := ?_, mem_reachable_iff := ?_, hasLater := ?_, supported := ?_,
           reached := ?_, enteredReached := ?_, closed := ?_, started := ?_ }
  · rw [same]
    exact List.nodup_nil
  · intro id
    rw [same]
    exact iff_of_false (Finset.notMem_empty id) List.not_mem_nil
  · rw [same]
    exact trivial
  · exact ⟨Or.inl (shiftRight_pending graph.entry), trivial⟩
  · intro item member
    rw [List.mem_singleton.mp member, shiftRight_pending]
    exact Graph.Reachable.root
  · rw [same]
    exact fun _ member => absurd member List.not_mem_nil
  · rw [same]
    exact fun _ _ member => absurd member List.not_mem_nil
  · exact Or.inr (List.mem_singleton_self _)

section

variable (invariant : Invariant graph search)

include invariant

/-- Finishing the block on top of the stack. -/
theorem Invariant.finish (top : search.work = (id <<< 1 ||| 1) :: work) :
    Invariant graph { search with work, postorder := search.postorder ++ [id] } := by
  have same : entered { search with work, postorder := search.postorder ++ [id] } =
      search.entered := by
    simp [entered, top, expandedBlocks_cons_expanded]
  have notPending : ∀ target : BlockId, target <<< 1 ∈ search.work → target <<< 1 ∈ work := by
    intro target member
    rw [top] at member
    rcases List.mem_cons.mp member with isTop | member
    · have clash := isExpanded_pending target
      rw [isTop, isExpanded_expanded] at clash
      cases clash
    · exact member
  have supported := invariant.supported
  rw [top] at supported
  exact
    { nodup := same ▸ invariant.nodup
      mem_reachable_iff := fun id => same ▸ invariant.mem_reachable_iff id
      hasLater := same ▸ invariant.hasLater
      supported := supported.2
      reached := fun item member =>
        invariant.reached item (top ▸ List.mem_cons_of_mem _ member)
      enteredReached := same ▸ invariant.enteredReached
      closed := fun source target member follows => by
        rw [same] at member ⊢
        exact (invariant.closed source target member follows).imp_right (notPending target)
      started := by
        rw [same]
        exact invariant.started.imp_right (notPending _) }

/-- Dropping a block that is already entered. -/
theorem Invariant.drop (top : search.work = (id <<< 1) :: work) (member : id ∈ search.reachable) :
    Invariant graph { search with work } := by
  have same : entered { search with work } = search.entered := by
    simp only [entered, top, expandedBlocks_cons_pending]
  have stillThere : ∀ target : BlockId, target ∈ search.entered ∨ target <<< 1 ∈ search.work →
      target ∈ search.entered ∨ target <<< 1 ∈ work := by
    intro target either
    rw [top, List.mem_cons] at either
    rcases either with isEntered | isTop | isPending
    · exact Or.inl isEntered
    · have sameId := congrArg (· >>> 1) isTop
      simp only [shiftRight_pending] at sameId
      rw [sameId]
      exact Or.inl ((invariant.mem_reachable_iff id).mp member)
    · exact Or.inr isPending
  have supported := invariant.supported
  rw [top] at supported
  exact
    { nodup := same ▸ invariant.nodup
      mem_reachable_iff := fun id => same ▸ invariant.mem_reachable_iff id
      hasLater := same ▸ invariant.hasLater
      supported := supported.2
      reached := fun item member =>
        invariant.reached item (top ▸ List.mem_cons_of_mem _ member)
      enteredReached := same ▸ invariant.enteredReached
      closed := fun source target member follows => by
        rw [same] at member ⊢
        exact stillThere target (invariant.closed source target member follows)
      started := by
        rw [same]
        exact stillThere _ invariant.started }

/-- Entering a block: it stands above the expanded blocks of the stack and pushes its
successors. -/
theorem Invariant.expand (top : search.work = (id <<< 1) :: work) (fresh : id ∉ search.reachable) :
    Invariant graph
      { search with
        work := pushed (insert id search.reachable) (graph.gen.block id).outEdges ++
          (id <<< 1 ||| 1) :: work
        reachable := insert id search.reachable } := by
  have wasEntered : search.entered = search.postorder ++ expandedBlocks work := by
    simp only [entered, top, expandedBlocks_cons_pending]
  have isEntered : entered
      { search with
        work := pushed (insert id search.reachable) (graph.gen.block id).outEdges ++
          (id <<< 1 ||| 1) :: work
        reachable := insert id search.reachable } =
      search.postorder ++ id :: expandedBlocks work := by
    simp only [entered, expandedBlocks_pushed, expandedBlocks_cons_expanded]
  have mem_iff : ∀ other, other ∈ search.postorder ++ id :: expandedBlocks work ↔
      other = id ∨ other ∈ search.entered := by
    intro other
    simp only [wasEntered, List.mem_append, List.mem_cons]
    exact or_left_comm
  have reached : graph.Reachable id := by
    have := invariant.reached (id <<< 1) (top ▸ List.mem_cons_self)
    rwa [shiftRight_pending] at this
  have supported := invariant.supported
  rw [top] at supported
  rcases supported with ⟨hasPredecessor, restSupported⟩
  rw [shiftRight_pending] at hasPredecessor
  have stillThere : ∀ target : BlockId, target ∈ search.entered ∨ target <<< 1 ∈ search.work →
      (target = id ∨ target ∈ search.entered) ∨
        target <<< 1 ∈ pushed (insert id search.reachable) (graph.gen.block id).outEdges ++
          (id <<< 1 ||| 1) :: work := by
    intro target either
    rw [top, List.mem_cons] at either
    rcases either with inEntered | isTop | isPending
    · exact Or.inl (Or.inr inEntered)
    · have sameId := congrArg (· >>> 1) isTop
      simp only [shiftRight_pending] at sameId
      exact Or.inl (Or.inl sameId)
    · exact Or.inr (List.mem_append_right _ (List.mem_cons_of_mem _ isPending))
  refine { nodup := ?_, mem_reachable_iff := ?_, hasLater := ?_, supported := ?_,
           reached := ?_, enteredReached := ?_, closed := ?_, started := ?_ }
  · rw [isEntered, List.nodup_middle, List.nodup_cons]
    rw [← wasEntered]
    exact ⟨fun member => fresh ((invariant.mem_reachable_iff id).mpr member), invariant.nodup⟩
  · intro other
    rw [isEntered, mem_iff, Finset.mem_insert, invariant.mem_reachable_iff]
  · rw [isEntered]
    exact (wasEntered ▸ invariant.hasLater).insert hasPredecessor
  · refine isSupported_pushed ⟨?_, restSupported⟩ ?_
    · rw [shiftRight_expanded]
      exact hasPredecessor
    · intro successor member
      exact ⟨id, by rw [expandedBlocks_cons_expanded]; exact List.mem_cons_self, member⟩
  · intro item member
    rcases List.mem_append.mp member with isPushed | member
    · simp only [pushed, List.mem_map, List.mem_filter] at isPushed
      rcases isPushed with ⟨successor, ⟨follows, _⟩, rfl⟩
      rw [shiftRight_pending]
      exact reached.step follows
    · rcases List.mem_cons.mp member with rfl | member
      · rw [shiftRight_expanded]
        exact reached
      · exact invariant.reached item (top ▸ List.mem_cons_of_mem _ member)
  · intro other member
    rw [isEntered, mem_iff] at member
    rcases member with rfl | member
    · exact reached
    · exact invariant.enteredReached other member
  · intro source target member follows
    rw [isEntered, mem_iff] at member
    rw [isEntered, mem_iff]
    rcases member with rfl | member
    · -- a successor of the new block is entered already or is pushed now
      by_cases inReachable : target ∈ insert source search.reachable
      · rw [Finset.mem_insert, invariant.mem_reachable_iff] at inReachable
        exact Or.inl inReachable
      · refine Or.inr (List.mem_append_left _ ?_)
        simp only [pushed, List.mem_map, List.mem_filter]
        exact ⟨target, ⟨follows, decide_eq_true inReachable⟩, rfl⟩
    · exact stillThere target (invariant.closed source target member follows)
  · rw [isEntered, mem_iff]
    exact stillThere _ invariant.started

/-- Every iteration keeps the invariant and leaves less work. -/
theorem Invariant.step (continues : (!search.work.isEmpty) = true) :
    Invariant graph (graph.gen.postorderStep search) ∧
      remaining graph (graph.gen.postorderStep search) < remaining graph search := by
  rcases work : search.work with _ | ⟨item, rest⟩
  · rw [work] at continues
    cases continues
  · simp only [Generator.postorderStep, work]
    by_cases expanded : isExpanded item = true
    · have isTop : item = (item >>> 1) <<< 1 ||| 1 := by
        simp only [isExpanded, Nat.and_one_is_mod, bne_iff_ne, ne_eq] at expanded
        rw [expanded_eq, Nat.shiftRight_eq_div_pow]
        omega
      rw [isExpanded] at expanded
      simp only [expanded, if_true]
      refine ⟨invariant.finish (work.trans (by rw [← isTop])), ?_⟩
      simp only [remaining, work, List.length_cons]
      omega
    · have isTop := eq_pending (Bool.not_eq_true _ ▸ expanded)
      rw [isExpanded] at expanded
      simp only [expanded, Bool.false_eq_true, if_false]
      by_cases member : item >>> 1 ∈ search.reachable
      · simp only [member, if_true]
        refine ⟨invariant.drop (work.trans (by rw [← isTop])) member, ?_⟩
        simp only [remaining, work, List.length_cons]
        omega
      · simp only [member, if_false, foldl_push_eq]
        refine ⟨invariant.expand (work.trans (by rw [← isTop])) member, ?_⟩
        have inRange : item >>> 1 < graph.size :=
          ControlFlowGraph.lt_of_reachable (invariant.reached item (work ▸ List.mem_cons_self))
        have split := unpushed_insert inRange member
        have bounded : (pushed (insert (item >>> 1) search.reachable)
            (graph.gen.block (item >>> 1)).outEdges).length ≤
            (graph.gen.block (item >>> 1)).outEdges.length := by
          rw [pushed, List.length_map]
          exact List.length_filter_le _ _
        simp only [remaining, work, List.length_cons, List.length_append]
        omega

/-- When the stack is empty the postorder is complete. -/
theorem Invariant.isPostorder (done : search.work = []) :
    IsPostorder graph.gen.Edge graph.entry search.postorder := by
  have same : search.entered = search.postorder := by
    simp [entered, done, expandedBlocks]
  have started := invariant.started
  have closed := invariant.closed
  simp only [done, List.not_mem_nil, or_false, same] at started closed
  refine ⟨same ▸ invariant.nodup, ?_, same ▸ invariant.hasLater⟩
  intro id
  constructor
  · intro member
    exact invariant.enteredReached id (same.symm ▸ member)
  · intro reached
    refine Graph.Reachable.induct (· ∈ search.postorder) started ?_ reached
    intro source target _ member follows
    exact closed source target member follows

end

end PostorderSearch

open PostorderSearch

/-- `ComputeReversePostorder` returns a postorder of the reachable blocks, together
with their set. -/
theorem Generator.exists_computeReversePostorder (graph : ControlFlowGraph) {fuel : Nat}
    (enough : 1 + PostorderSearch.unpushed graph ∅ ≤ fuel) :
    ∃ search, graph.gen.computeReversePostorder fuel = some search ∧
      IsPostorder graph.gen.Edge graph.entry search.postorder ∧
      ∀ id, id ∈ search.reachable ↔ graph.Reachable id := by
  have steps : ∀ search : PostorderSearch, PostorderSearch.Invariant graph search →
      (!search.work.isEmpty) = true →
      ∃ next, some (graph.gen.postorderStep search) = some next ∧
        PostorderSearch.Invariant graph next ∧
        remaining graph next < remaining graph search := by
    intro search invariant continues
    exact ⟨_, rfl, invariant.step continues⟩
  rcases exists_runWhile (PostorderSearch.Invariant graph) (remaining graph)
    steps (invariant_start graph) enough with
    ⟨search, returns, invariant, finished⟩
  have done : search.work = [] := by
    simpa only [Bool.not_eq_false', List.isEmpty_iff] using finished
  have isPostorder := invariant.isPostorder done
  refine ⟨search, returns, isPostorder, ?_⟩
  intro id
  rw [invariant.mem_reachable_iff, PostorderSearch.entered, done]
  simpa only [expandedBlocks, List.filter_nil, List.map_nil,
    List.append_nil] using isPostorder.mem_iff id

end DaveCC.Backend
