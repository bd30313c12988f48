import DaveCC.Backend.ReversePostorder

/-!
# The fixed point of the tentative immediate dominators

`IntersectImmediateDominators` returns the meet of two processed blocks, a pass of
`CalculateDominators` keeps the invariant of the tentative dominators, and the loop
over the passes returns, at a fixed point: every pass that changes something lowers the
number of some parent and raises none.
-/

namespace DaveCC.Backend

open DaveCC.Graph DaveCC.Loop Generator ControlFlowGraph

theorem foldl_update_zipIdx (order : List BlockId) (start : Nat) (nodup : order.Nodup)
    (numbers : BlockId → Nat) (id : BlockId) :
    (order.zipIdx start).foldl
        (fun numbers entry => Function.update numbers entry.1 entry.2) numbers id =
      if id ∈ order then start + order.idxOf id else numbers id := by
  induction order generalizing start numbers with
  | nil => simp only [List.zipIdx_nil, List.foldl_nil, List.not_mem_nil, if_false]
  | cons first order ih =>
    rw [List.zipIdx_cons, List.foldl_cons, ih _ nodup.tail]
    by_cases same : id = first
    · subst same
      have fresh : id ∉ order := (List.nodup_cons.mp nodup).1
      simp [fresh]
    · simp only [List.mem_cons, same, false_or, List.idxOf_cons_ne _ (Ne.symm same),
        Function.update_of_ne same]
      split_ifs
      · omega
      · rfl

theorem rpoNumbers_eq {edge : BlockId → BlockId → Prop} {entry : BlockId}
    {postorder : List BlockId} (isPostorder : IsPostorder edge entry postorder)
    {id : BlockId} (reached : Graph.Reachable edge entry id) :
    rpoNumbers postorder id = isPostorder.searchOrder.rank id := by
  have member := isPostorder.mem_reverse_iff.mpr reached
  rw [rpoNumbers, foldl_update_zipIdx _ _ isPostorder.nodup_reverse, if_pos member, Nat.zero_add]
  rfl

section Search

variable {graph : ControlFlowGraph}
variable {order : SearchOrder graph.gen.Edge graph.entry}
variable {rpoNumber : BlockId → Nat} {idoms : Idoms} {fuel : Nat}

/-- `climb` stops at the highest block of the chain that is no further down than the
limit. -/
theorem exists_climb (forest : PartialTree order idoms)
    (agrees : ∀ id, graph.Reachable id → rpoNumber id = order.rank id)
    {block limit : BlockId} (isProcessed : Processed idoms block)
    (limitReached : graph.Reachable limit) (enough : order.rank block ≤ fuel) :
    ∃ low, Generator.climb fuel idoms rpoNumber block limit = some low ∧
      Ancestor idoms low block ∧ order.rank low ≤ order.rank limit ∧
      ∀ candidate, Ancestor idoms candidate block →
        order.rank candidate ≤ order.rank limit → Ancestor idoms candidate low := by
  let Invariant : BlockId → Prop := fun low =>
    Ancestor idoms low block ∧ ∀ candidate, Ancestor idoms candidate block →
      order.rank candidate ≤ order.rank limit → Ancestor idoms candidate low
  have numbers : ∀ low, Ancestor idoms low block → rpoNumber low = order.rank low :=
    fun low above => agrees low (forest.reachable (forest.ancestor_processed above isProcessed))
  have steps : ∀ low, Invariant low → decide (rpoNumber low > rpoNumber limit) = true →
      ∃ next, idoms low = some next ∧ Invariant next ∧
        order.rank next < order.rank low := by
    rintro low ⟨above, highest⟩ continues
    rw [decide_eq_true_eq, numbers low above, agrees limit limitReached] at continues
    have lowProcessed := forest.ancestor_processed above isProcessed
    rcases lowProcessed with ⟨next, isParent⟩
    have notEntry : low ≠ graph.entry := by
      rintro rfl
      rw [order.rank_entry] at continues
      exact Nat.not_lt_zero _ continues
    refine ⟨next, isParent, ⟨((Ancestor.refl idoms next).of_parent isParent).trans above, ?_⟩,
      forest.rank_lt isParent notEntry⟩
    intro candidate candidateAbove candidateLow
    rcases (highest candidate candidateAbove candidateLow).cases_node with
      same | ⟨parent, isSame, aboveParent⟩
    · subst same
      exact absurd candidateLow (Nat.not_le.mpr continues)
    · obtain rfl := Option.some_inj.mp (isSame.symm.trans isParent)
      exact aboveParent
  rcases exists_runWhile Invariant order.rank steps
    ⟨Ancestor.refl idoms block, fun _ above _ => above⟩ enough with
    ⟨low, returns, ⟨above, highest⟩, stops⟩
  refine ⟨low, returns, above, ?_, highest⟩
  rw [decide_eq_false_iff_not, numbers low above, agrees limit limitReached] at stops
  exact Nat.not_lt.mp stops

/-- `IntersectImmediateDominators` returns the block whose ancestors are the common
ancestors of the two. -/
theorem exists_intersect (forest : PartialTree order idoms)
    (agrees : ∀ id, graph.Reachable id → rpoNumber id = order.rank id) {left right : BlockId}
    (leftProcessed : Processed idoms left) (rightProcessed : Processed idoms right)
    (enough : order.rank left + order.rank right ≤ fuel) :
    ∃ meet, intersectImmediateDominators fuel idoms rpoNumber left right = some meet ∧
      Processed idoms meet ∧
      ∀ candidate, Ancestor idoms candidate meet ↔
        Ancestor idoms candidate left ∧ Ancestor idoms candidate right := by
  let Invariant : BlockId × BlockId → Prop := fun pair =>
    Processed idoms pair.1 ∧ Processed idoms pair.2 ∧ order.rank pair.1 + order.rank pair.2 ≤ fuel ∧
      ∀ candidate, Ancestor idoms candidate left ∧ Ancestor idoms candidate right ↔
        Ancestor idoms candidate pair.1 ∧ Ancestor idoms candidate pair.2
  have steps : ∀ pair : BlockId × BlockId, Invariant pair → (pair.1 != pair.2) = true →
      ∃ next, (do
          let left ← Generator.climb fuel idoms rpoNumber pair.1 pair.2
          let right ← Generator.climb fuel idoms rpoNumber pair.2 left
          some (left, right)) = some next ∧ Invariant next ∧
        order.rank next.1 + order.rank next.2 < order.rank pair.1 + order.rank pair.2 := by
    rintro ⟨first, second⟩ ⟨firstProcessed, secondProcessed, bounded, common⟩ different
    simp only at firstProcessed secondProcessed bounded common
    have secondReached := forest.reachable secondProcessed
    rcases exists_climb forest agrees firstProcessed secondReached
      (by omega : order.rank first ≤ fuel) with ⟨low, lowReturns, lowAbove, lowRank, lowHighest⟩
    have lowProcessed := forest.ancestor_processed lowAbove firstProcessed
    rcases exists_climb forest agrees secondProcessed (forest.reachable lowProcessed)
      (by omega : order.rank second ≤ fuel) with ⟨high, highReturns, highAbove, highRank, highHighest⟩
    have differentRanks : order.rank first ≠ order.rank second := by
      intro same
      have := order.rank_injective (forest.reachable firstProcessed) secondReached same
      exact absurd this (bne_iff_ne.mp different)
    have lowLe := forest.rank_le lowAbove
    refine ⟨(low, high), by rw [lowReturns]; simp only [Option.bind_eq_bind, Option.bind_some,
      highReturns], ⟨lowProcessed, forest.ancestor_processed highAbove secondProcessed,
        by simp only; omega, ?_⟩, by simp only; omega⟩
    intro candidate
    rw [common candidate]
    constructor
    · rintro ⟨aboveFirst, aboveSecond⟩
      have aboveLow := lowHighest candidate aboveFirst (forest.rank_le aboveSecond)
      exact ⟨aboveLow, highHighest candidate aboveSecond (forest.rank_le aboveLow)⟩
    · rintro ⟨aboveLow, aboveHigh⟩
      exact ⟨aboveLow.trans lowAbove, aboveHigh.trans highAbove⟩
  have start : Invariant (left, right) :=
    ⟨leftProcessed, rightProcessed, enough, fun _ => Iff.rfl⟩
  rcases exists_runWhile Invariant (fun pair => order.rank pair.1 + order.rank pair.2) steps
    start enough with
    ⟨⟨first, second⟩, returns, ⟨isProcessed, _, _, common⟩, stops⟩
  simp only [bne_eq_false_iff_eq] at stops
  subst stops
  refine ⟨first, ?_, isProcessed, ?_⟩
  · rw [intersectImmediateDominators, returns]
    rfl
  · intro candidate
    rw [common candidate, and_self]

/-- What the loop over the in edges has found in the predecessors it has seen: nothing
while none is processed, then the meet of those that are. -/
def MeetSoFar (idoms : Idoms) (seen : BlockId → Prop) : Option BlockId → Prop
  | none => ∀ predecessor, seen predecessor → ¬ Processed idoms predecessor
  | some meet => Processed idoms meet ∧
      IsMeet idoms (fun predecessor => seen predecessor ∧ Processed idoms predecessor) meet

theorem exists_newIdom (forest : PartialTree order idoms)
    (agrees : ∀ id, graph.Reachable id → rpoNumber id = order.rank id)
    (enough : ∀ first second, graph.Reachable first → graph.Reachable second →
      order.rank first + order.rank second ≤ fuel) (id : BlockId) :
    ∃ found, graph.gen.newIdom fuel rpoNumber idoms id = some found ∧
      MeetSoFar idoms (· ∈ (graph.gen.block id).inEdges) found := by
  refine exists_foldlM (fun seen found => MeetSoFar idoms (· ∈ seen) found) ?_ ?_
  · intro seen predecessor rest found _ sofar
    have seenCons : ∀ other, other ∈ seen ++ [predecessor] ↔
        other ∈ seen ∨ other = predecessor := by
      intro other
      rw [List.mem_append, List.mem_singleton]
    cases isParent : idoms predecessor with
    | none =>
      have notProcessed : ¬ Processed idoms predecessor := by
        rintro ⟨parent, hasParent⟩
        rw [isParent] at hasParent
        cases hasParent
      refine ⟨found, by simp, ?_⟩
      have sameProcessed : ∀ other, (other ∈ seen ++ [predecessor] ∧ Processed idoms other) ↔
          (other ∈ seen ∧ Processed idoms other) := by
        intro other
        rw [seenCons]
        constructor
        · rintro ⟨inSeen | rfl, isProcessed⟩
          · exact ⟨inSeen, isProcessed⟩
          · exact absurd isProcessed notProcessed
        · rintro ⟨inSeen, isProcessed⟩
          exact ⟨Or.inl inSeen, isProcessed⟩
      cases found with
      | none =>
        intro other member isProcessed
        exact sofar other ((sameProcessed other).mp ⟨member, isProcessed⟩).1 isProcessed
      | some meet =>
        refine ⟨sofar.1, ?_⟩
        intro candidate
        simp only [sameProcessed]
        exact sofar.2 candidate
    | some parent =>
      have isProcessed : Processed idoms predecessor := ⟨parent, isParent⟩
      cases found with
      | none =>
        refine ⟨some predecessor, rfl, isProcessed, ?_⟩
        intro candidate
        constructor
        · rintro above other ⟨member, otherProcessed⟩
          rcases (seenCons other).mp member with inSeen | rfl
          · exact absurd otherProcessed (sofar other inSeen)
          · exact above
        · intro common
          exact common predecessor ⟨(seenCons predecessor).mpr (Or.inr rfl), isProcessed⟩
      | some current =>
        rcases sofar with ⟨currentProcessed, isMeet⟩
        rcases exists_intersect forest agrees currentProcessed isProcessed
          (enough current predecessor (forest.reachable currentProcessed)
            (forest.reachable isProcessed)) with ⟨meet, returns, meetProcessed, isBoth⟩
        refine ⟨some meet, by simp [returns], meetProcessed, ?_⟩
        intro candidate
        rw [isBoth, isMeet]
        constructor
        · rintro ⟨common, above⟩ other ⟨member, otherProcessed⟩
          rcases (seenCons other).mp member with inSeen | rfl
          · exact common other ⟨inSeen, otherProcessed⟩
          · exact above
        · intro common
          refine ⟨?_, common predecessor ⟨(seenCons predecessor).mpr (Or.inr rfl), isProcessed⟩⟩
          rintro other ⟨inSeen, otherProcessed⟩
          exact common other ⟨(seenCons other).mpr (Or.inl inSeen), otherProcessed⟩
  · intro predecessor member
    cases member

/-! ## One block of a pass -/

variable {postorder : List BlockId}

/-- The number of a block's tentative immediate dominator, or the number of blocks when
it has none. -/
def parentNumber (order : SearchOrder graph.gen.Edge graph.entry) (idoms : Idoms)
    (id : BlockId) : Nat :=
  match idoms id with
  | none => graph.size
  | some parent => order.rank parent

/-- The sum that every change lowers. -/
def potential (order : SearchOrder graph.gen.Edge graph.entry) (postorder : List BlockId)
    (idoms : Idoms) : Nat :=
  ∑ id ∈ postorder.toFinset, parentNumber order idoms id

/-- The parent of the block is the meet of its processed predecessors. -/
def Settled (graph : ControlFlowGraph) (idoms : Idoms) (id : BlockId) : Prop :=
  ∃ parent, idoms id = some parent ∧
    IsMeet idoms (ProcessedPredecessor graph.gen.Edge idoms id) parent

theorem potential_update_lt {id meet : BlockId} (member : id ∈ postorder)
    (lower : order.rank meet < parentNumber order idoms id) :
    potential order postorder (Function.update idoms id (some meet)) <
      potential order postorder idoms := by
  have atId : parentNumber order (Function.update idoms id (some meet)) id =
      order.rank meet := by
    rw [parentNumber, Function.update_self]
  apply Finset.sum_lt_sum
  · intro other _
    by_cases same : other = id
    · rw [same, atId]
      exact Nat.le_of_lt lower
    · rw [parentNumber, parentNumber, Function.update_of_ne same]
  · exact ⟨id, List.mem_toFinset.mpr member, by rw [atId]; exact lower⟩

/-- Visiting the next block of a pass moves the invariant on. It leaves the state as it
is, where the block is settled, or else lowers the potential. -/
theorem exists_visitBlock {position : Nat} (invariant : PassInvariant order position idoms)
    (agrees : ∀ id, graph.Reachable id → rpoNumber id = order.rank id) (enough : ∀ first second,
      graph.Reachable first → graph.Reachable second → order.rank first + order.rank second ≤ fuel)
    (ranksLt : ∀ id, graph.Reachable id → order.rank id < graph.size) {id : BlockId}
    (member : id ∈ postorder) (reached : graph.Reachable id) (notEntry : id ≠ graph.entry)
    (isNext : order.rank id = position) (changed : Bool) :
    ∃ next, graph.gen.visitBlock fuel rpoNumber (idoms, changed) id = some next ∧
      PassInvariant order (position + 1) next.1 ∧
      ((next = (idoms, changed) ∧ Settled graph idoms id) ∨
        (next.2 = true ∧ potential order postorder next.1 < potential order postorder idoms)) := by
  rcases exists_newIdom invariant.toPartialTree agrees enough id with ⟨found, returns, sofar⟩
  have treeProcessed : Processed idoms (order.tree id) :=
    invariant.processed (order.tree_reachable reached notEntry)
      (isNext ▸ order.tree_rank reached notEntry)
  have treeIn : order.tree id ∈ (graph.gen.block id).inEdges :=
    edge_iff_mem_inEdges.mp (order.tree_edge reached notEntry)
  cases found with
  | none => exact absurd treeProcessed (sofar _ treeIn)
  | some meet =>
    rcases sofar with ⟨meetProcessed, isMeetIn⟩
    have isMeet : IsMeet idoms (ProcessedPredecessor graph.gen.Edge idoms id) meet := by
      intro candidate
      simp only [ProcessedPredecessor, edge_iff_mem_inEdges]
      exact isMeetIn candidate
    have stepped := invariant.step reached notEntry isNext isMeet
    by_cases same : idoms id = some meet
    · refine ⟨(idoms, changed), ?_, ?_, Or.inl ⟨rfl, meet, same, isMeet⟩⟩
      · simp [visitBlock, returns, same]
      · rwa [← same, Function.update_eq_self] at stepped
    · refine ⟨(Function.update idoms id (some meet), true), ?_, stepped, Or.inr ⟨rfl, ?_⟩⟩
      · simp only [visitBlock, returns, Option.bind_eq_bind, Option.bind_some,
          bne_iff_ne.mpr same, if_true]
      · refine potential_update_lt member ?_
        cases isParent : idoms id with
        | none =>
          rw [parentNumber, isParent]
          exact ranksLt meet (invariant.reachable meetProcessed)
        | some parent =>
          have up := invariant.meet_above_parent reached notEntry isNext isMeet isParent
          rw [parentNumber, isParent]
          refine Nat.lt_of_le_of_ne up.2 ?_
          intro sameRank
          have isSame := invariant.eq_of_rank_eq up.1 (invariant.closed id parent isParent) sameRank
          exact same (isParent.trans (congrArg some isSame.symm))

end Search

section Passes

variable {graph : ControlFlowGraph} {postorder : List BlockId} {idoms : Idoms} {fuel : Nat}

section

variable (isPostorder : IsPostorder graph.gen.Edge graph.entry postorder)

include isPostorder

/-- A pass over the order: it leaves the state as it is, where every block is settled, or
else lowers the potential. -/
theorem exists_pass (invariant : PassInvariant isPostorder.searchOrder 1 idoms)
    (enough : 2 * graph.size ≤ fuel) :
    ∃ final, postorder.reverse.tail.foldlM
        (graph.gen.visitBlock fuel (rpoNumbers postorder)) (idoms, false) = some final ∧
      PassInvariant isPostorder.searchOrder 1 final.1 ∧
      ((final = (idoms, false) ∧ ∀ id, graph.Reachable id → id ≠ graph.entry →
          Settled graph idoms id) ∨
        (final.2 = true ∧ potential isPostorder.searchOrder postorder final.1 <
          potential isPostorder.searchOrder postorder idoms)) := by
  have ranksLt : ∀ id, graph.Reachable id →
      isPostorder.searchOrder.rank id < postorder.length := by
    intro id reached
    rw [← List.length_reverse]
    exact List.idxOf_lt_length_iff.mpr (isPostorder.mem_reverse_iff.mpr reached)
  have lengthLe : postorder.length ≤ graph.size := by
    have bounded : postorder.toFinset ⊆ Finset.range graph.size := by
      intro id member
      rw [List.mem_toFinset, isPostorder.mem_iff] at member
      exact Finset.mem_range.mpr (lt_of_reachable member)
    have := Finset.card_le_card bounded
    rwa [List.toFinset_card_of_nodup isPostorder.nodup, Finset.card_range] at this
  have enoughPairs : ∀ first second, graph.Reachable first → graph.Reachable second →
      isPostorder.searchOrder.rank first + isPostorder.searchOrder.rank second ≤ fuel := by
    intro first second firstReached secondReached
    have := ranksLt first firstReached
    have := ranksLt second secondReached
    omega
  let Invariant : List BlockId → Idoms × Bool → Prop := fun done state =>
    PassInvariant isPostorder.searchOrder (done.length + 1) state.1 ∧
      ((state = (idoms, false) ∧ ∀ id ∈ done, Settled graph idoms id) ∨
        (state.2 = true ∧ potential isPostorder.searchOrder postorder state.1 <
          potential isPostorder.searchOrder postorder idoms))
  have start : Invariant [] (idoms, false) :=
    ⟨invariant, Or.inl ⟨rfl, fun id member => absurd member List.not_mem_nil⟩⟩
  have steps : ∀ done id rest state, postorder.reverse.tail = done ++ id :: rest →
      Invariant done state →
      ∃ next, graph.gen.visitBlock fuel (rpoNumbers postorder) state id = some next ∧
        Invariant (done ++ [id]) next := by
    rintro done id rest ⟨current, changed⟩ split ⟨passing, result⟩
    have isOrder : postorder.reverse = graph.entry :: (done ++ id :: rest) := by
      rw [← split]
      exact isPostorder.reverse_eq_cons
    have nodup := isPostorder.nodup_reverse
    have member : id ∈ postorder.reverse := by
      rw [isOrder]
      exact List.mem_cons_of_mem _ (List.mem_append_right _ List.mem_cons_self)
    have reached := isPostorder.mem_reverse_iff.mp member
    rw [isOrder, List.nodup_cons, List.nodup_middle, List.nodup_cons] at nodup
    have notEntry : id ≠ graph.entry := by
      rintro rfl
      exact nodup.1 (List.mem_append_right _ List.mem_cons_self)
    have notDone : id ∉ done := fun again => nodup.2.1 (List.mem_append_left _ again)
    have isNext : isPostorder.searchOrder.rank id = done.length + 1 := by
      have position : postorder.reverse.idxOf id = done.length + 1 := by
        rw [isOrder, List.idxOf_cons_ne _ (Ne.symm notEntry),
          List.idxOf_append_of_notMem notDone, List.idxOf_cons_self, Nat.add_zero]
      exact position
    rcases exists_visitBlock passing (fun _ => rpoNumbers_eq isPostorder) enoughPairs
      (fun id reached => Nat.lt_of_lt_of_le (ranksLt id reached) lengthLe)
      (List.mem_reverse.mp member) reached notEntry isNext changed with
      ⟨next, visits, stepped, outcome⟩
    refine ⟨next, visits, by rw [List.length_append]; exact stepped, ?_⟩
    rcases outcome with ⟨rfl, isSettled⟩ | ⟨isChanged, lower⟩
    · rcases result with ⟨same, settled⟩ | lowered
      · refine Or.inl ⟨same, ?_⟩
        have sameIdoms : current = idoms := congrArg Prod.fst same
        intro other otherMember
        rcases List.mem_append.mp otherMember with earlier | isId
        · exact settled other earlier
        · rw [List.mem_singleton.mp isId, ← sameIdoms]
          exact isSettled
      · exact Or.inr lowered
    · refine Or.inr ⟨isChanged, ?_⟩
      rcases result with ⟨same, _⟩ | ⟨_, lowered⟩
      · rw [congrArg Prod.fst same] at lower
        exact lower
      · exact Nat.lt_trans lower lowered
  rcases exists_foldlM Invariant steps start with ⟨final, returns, passed, result⟩
  refine ⟨final, returns, passed.restart ?_, ?_⟩
  · intro id reached
    have := ranksLt id reached
    rw [List.length_tail, List.length_reverse]
    omega
  · rcases result with ⟨rfl, settled⟩ | lowered
    · refine Or.inl ⟨rfl, ?_⟩
      intro id reached notEntry
      apply settled
      have member := isPostorder.mem_reverse_iff.mpr reached
      rw [isPostorder.reverse_eq_cons] at member
      exact (List.mem_cons.mp member).resolve_left notEntry
    · exact Or.inr lowered

/-- Before the first pass the potential is at most the square of the number of blocks. -/
theorem potential_le
    (parentsLe : ∀ id parent, idoms id = some parent → isPostorder.searchOrder.rank parent ≤
      graph.size) :
    potential isPostorder.searchOrder postorder idoms ≤ graph.size * graph.size := by
  have bounded : postorder.toFinset ⊆ Finset.range graph.size := by
    intro id member
    rw [List.mem_toFinset, isPostorder.mem_iff] at member
    exact Finset.mem_range.mpr (lt_of_reachable member)
  have count := Finset.card_le_card bounded
  rw [Finset.card_range] at count
  calc potential isPostorder.searchOrder postorder idoms
      ≤ postorder.toFinset.card • graph.size := by
        apply Finset.sum_le_card_nsmul
        intro id _
        rw [parentNumber]
        cases isParent : idoms id with
        | none => exact Nat.le_refl _
        | some parent => exact parentsLe id parent isParent
    _ = postorder.toFinset.card * graph.size := rfl
    _ ≤ graph.size * graph.size := Nat.mul_le_mul_right _ count

/-- The loop over the passes returns, and what it returns is a fixed point. -/
theorem exists_computeIdoms (enough : graph.size * graph.size + 2 * graph.size + 1 ≤ fuel) :
    ∃ idoms, graph.gen.computeIdoms fuel postorder = some idoms ∧
      IsFixedPoint isPostorder.searchOrder idoms := by
  let order := isPostorder.searchOrder
  let Invariant : Idoms × Bool → Prop := fun state =>
    PassInvariant order 1 state.1 ∧
      (state.2 = false → ∀ id, graph.Reachable id → id ≠ graph.entry → Settled graph state.1 id)
  have steps : ∀ state : Idoms × Bool, Invariant state → state.2 = true →
      ∃ next, postorder.reverse.tail.foldlM
          (graph.gen.visitBlock fuel (rpoNumbers postorder)) (state.1, false) =
            some next ∧ Invariant next ∧
        potential order postorder next.1 + next.2.toNat <
          potential order postorder state.1 + state.2.toNat := by
    rintro ⟨current, changed⟩ ⟨passing, _⟩ isChanged
    rcases exists_pass isPostorder passing (by omega : 2 * graph.size ≤ fuel) with
      ⟨next, returns, passed, result⟩
    refine ⟨next, returns, ⟨passed, ?_⟩, ?_⟩
    · intro unchanged
      rcases result with ⟨same, settled⟩ | ⟨hasChanged, _⟩
      · rw [same]
        exact settled
      · rw [unchanged] at hasChanged
        cases hasChanged
    · simp only at isChanged
      rcases result with ⟨same, _⟩ | ⟨hasChanged, lower⟩
      · rw [same, isChanged]
        exact Nat.lt_succ_self _
      · rw [hasChanged, isChanged]
        exact Nat.add_lt_add_right lower 1
  have begun := PassInvariant.start order
  have start : Invariant
      (Function.update (fun _ => none) graph.entry (some graph.entry), true) :=
    ⟨begun, fun unchanged => by cases unchanged⟩
  have bound : potential order postorder
      (Function.update (fun _ => none) graph.entry (some graph.entry)) + true.toNat ≤ fuel := by
    have parentsLe : ∀ id parent,
        Function.update (fun _ => none) graph.entry (some graph.entry) id = some parent →
        order.rank parent ≤ graph.size := by
      intro id parent isParent
      by_cases atEntry : id = graph.entry
      · rw [atEntry, Function.update_self] at isParent
        cases isParent
        rw [order.rank_entry]
        exact Nat.zero_le _
      · rw [Function.update_of_ne atEntry] at isParent
        cases isParent
    have small := potential_le isPostorder parentsLe
    exact Nat.le_trans (Nat.add_le_add_right small 1) (by omega)
  rcases exists_runWhile Invariant
    (fun state => potential order postorder state.1 + state.2.toNat) steps start bound with
    ⟨final, returns, ⟨passed, settled⟩, stops⟩
  refine ⟨final.1, ?_, ?_⟩
  · rw [computeIdoms, returns]
    rfl
  · refine { passed.toPartialTree with processed := ?_, meets := ?_ }
    · intro id reached
      by_cases atEntry : id = graph.entry
      · exact ⟨graph.entry, by rw [atEntry]; exact passed.root⟩
      · rcases settled stops id reached atEntry with ⟨parent, isParent, _⟩
        exact ⟨parent, isParent⟩
    · intro id parent notEntry isParent
      rcases settled stops id (passed.reachable ⟨parent, isParent⟩) notEntry with
        ⟨other, isOther, isMeet⟩
      obtain rfl := Option.some_inj.mp (isOther.symm.trans isParent)
      exact isMeet

end

end Passes

end DaveCC.Backend
