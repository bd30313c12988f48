import DaveCC.Graph.Dominance

/-!
# Dominators by intersection of ancestor chains

The fixed-point computation of immediate dominators over a map of tentative
parents, for an arbitrary graph and an order of its nodes in which every node but
the entry has an earlier predecessor. One step replaces the parent of a node by
the meet of its processed predecessors. The invariants of the steps give both
termination and the exactness of a fixed point.
-/

namespace DaveCC.Graph

variable {Node : Type*}

/-- `ancestor` is `node` or is met on following the parents of `node`. -/
def Ancestor (parents : Node → Option Node) (ancestor node : Node) : Prop :=
  Relation.ReflTransGen (fun child parent => parents child = some parent) node ancestor

namespace Ancestor

variable {parents : Node → Option Node} {ancestor other node parent : Node}

theorem refl (parents : Node → Option Node) (node : Node) : Ancestor parents node node :=
  Relation.ReflTransGen.refl

theorem trans (outer : Ancestor parents ancestor other)
    (inner : Ancestor parents other node) : Ancestor parents ancestor node :=
  Relation.ReflTransGen.trans inner outer

theorem of_parent (isParent : parents node = some parent)
    (above : Ancestor parents ancestor parent) : Ancestor parents ancestor node :=
  Relation.ReflTransGen.head isParent above

theorem cases_node (above : Ancestor parents ancestor node) :
    ancestor = node ∨
      ∃ parent, parents node = some parent ∧ Ancestor parents ancestor parent := by
  rcases Relation.ReflTransGen.cases_head above with same | ⟨parent, isParent, above⟩
  · exact Or.inl same.symm
  · exact Or.inr ⟨parent, isParent, above⟩

/-- The ancestors of a node form a chain. -/
theorem total (first : Ancestor parents ancestor node) (second : Ancestor parents other node) :
    Ancestor parents ancestor other ∨ Ancestor parents other ancestor := by
  have unique : Relator.RightUnique
      (fun child parent : Node => parents child = some parent) := by
    intro child first second isFirst isSecond
    exact Option.some_inj.mp (isFirst.symm.trans isSecond)
  exact (Relation.ReflTransGen.total_of_right_unique unique first second).symm

end Ancestor

/-- The ancestors of the meet are the common ancestors of the chosen nodes. -/
def IsMeet (parents : Node → Option Node) (chosen : Node → Prop) (meet : Node) : Prop :=
  ∀ candidate, Ancestor parents candidate meet ↔
    ∀ node, chosen node → Ancestor parents candidate node

/-- The node has a parent. -/
def Processed (parents : Node → Option Node) (node : Node) : Prop :=
  ∃ parent, parents node = some parent

theorem Ancestor.processed {parents : Node → Option Node} {ancestor node : Node}
    (closed : ∀ child parent, parents child = some parent → Processed parents parent)
    (above : Ancestor parents ancestor node) (isProcessed : Processed parents node) :
    Processed parents ancestor := by
  induction above with
  | refl => exact isProcessed
  | tail _ isParent _ => exact closed _ _ isParent

variable {edge : Node → Node → Prop} {entry : Node}

/-- A ranking of the reachable nodes from the entry on, in which every other
node has a predecessor of lower rank. -/
structure SearchOrder (edge : Node → Node → Prop) (entry : Node) where
  rank : Node → ℕ
  tree : Node → Node
  rank_injective : ∀ {first second}, Reachable edge entry first →
    Reachable edge entry second → rank first = rank second → first = second
  rank_entry : rank entry = 0
  tree_edge : ∀ {node}, Reachable edge entry node → node ≠ entry → edge (tree node) node
  tree_reachable : ∀ {node}, Reachable edge entry node → node ≠ entry →
    Reachable edge entry (tree node)
  tree_rank : ∀ {node}, Reachable edge entry node → node ≠ entry → rank (tree node) < rank node

/-- Every node of the list but the entry has a predecessor further back. -/
def HasLater (edge : Node → Node → Prop) (entry : Node) : List Node → Prop
  | [] => True
  | node :: later =>
    (node = entry ∨ ∃ predecessor ∈ later, edge predecessor node) ∧ HasLater edge entry later

namespace HasLater

variable {node : Node} {front back : List Node}

theorem insert (holds : HasLater edge entry (front ++ back))
    (supported : node = entry ∨ ∃ predecessor ∈ back, edge predecessor node) :
    HasLater edge entry (front ++ node :: back) := by
  induction front with
  | nil => exact ⟨supported, holds⟩
  | cons first front insertRest =>
    refine ⟨?_, insertRest holds.2⟩
    rcases holds.1 with isEntry | ⟨predecessor, member, follows⟩
    · exact Or.inl isEntry
    · refine Or.inr ⟨predecessor, ?_, follows⟩
      rcases List.mem_append.mp member with inFront | inBack
      · exact List.mem_append_left _ inFront
      · exact List.mem_append_right _ (List.mem_cons_of_mem _ inBack)

theorem of_append (holds : HasLater edge entry (front ++ node :: back)) :
    node = entry ∨ ∃ predecessor ∈ back, edge predecessor node := by
  induction front with
  | nil => exact holds.1
  | cons _ _ ofRest => exact ofRest holds.2

/-- The last node has none behind it, so it is the entry. -/
theorem getLast_eq (holds : HasLater edge entry front) (nonempty : front ≠ []) :
    front.getLast nonempty = entry := by
  rw [← List.dropLast_concat_getLast nonempty] at holds
  rcases holds.of_append with isEntry | ⟨_, member, _⟩
  · exact isEntry
  · cases member

end HasLater

/-- A list of the reachable nodes, each once, in which every node but the entry has a
predecessor further back. -/
structure IsPostorder (edge : Node → Node → Prop) (entry : Node) (postorder : List Node) :
    Prop where
  nodup : postorder.Nodup
  mem_iff : ∀ node, node ∈ postorder ↔ Reachable edge entry node
  hasLater : HasLater edge entry postorder

namespace IsPostorder

variable {postorder : List Node} {node : Node}

section

variable (isPostorder : IsPostorder edge entry postorder)

include isPostorder

theorem ne_nil : postorder ≠ [] := by
  rintro rfl
  exact List.not_mem_nil ((isPostorder.mem_iff entry).mpr Reachable.root)

/-- The reverse of the postorder starts with the entry. -/
theorem reverse_eq_cons : postorder.reverse = entry :: postorder.reverse.tail := by
  have isEntry := isPostorder.hasLater.getLast_eq isPostorder.ne_nil
  rw [← List.dropLast_concat_getLast isPostorder.ne_nil, isEntry, List.reverse_append]
  rfl

theorem mem_reverse_iff : node ∈ postorder.reverse ↔ Reachable edge entry node := by
  rw [List.mem_reverse, isPostorder.mem_iff]

theorem nodup_reverse : postorder.reverse.Nodup :=
  List.pairwise_reverse.mpr (isPostorder.nodup.imp Ne.symm)

end

variable [DecidableEq Node]

/-- Each reachable node but the entry has a predecessor that the reverse postorder
lists earlier. -/
theorem exists_earlier (isPostorder : IsPostorder edge entry postorder)
    (reached : Reachable edge entry node) (notEntry : node ≠ entry) :
    ∃ predecessor, edge predecessor node ∧ Reachable edge entry predecessor ∧
      postorder.reverse.idxOf predecessor < postorder.reverse.idxOf node := by
  rcases List.append_of_mem ((isPostorder.mem_iff node).mpr reached) with ⟨front, back, split⟩
  have nodup := isPostorder.nodup_reverse
  have holds := isPostorder.hasLater
  rw [split] at holds
  rcases holds.of_append with isEntry | ⟨predecessor, member, follows⟩
  · exact absurd isEntry notEntry
  · refine ⟨predecessor, follows, ?_, ?_⟩
    · rw [← isPostorder.mem_iff, split]
      exact List.mem_append_right _ (List.mem_cons_of_mem _ member)
    · have reversed : postorder.reverse = back.reverse ++ node :: front.reverse := by
        simp [split]
      rw [reversed] at nodup ⊢
      have notBefore : node ∉ back.reverse := by
        intro again
        exact (List.nodup_append.mp nodup).2.2 node again node List.mem_cons_self rfl
      rw [List.idxOf_append_of_mem (List.mem_reverse.mpr member),
        List.idxOf_append_of_notMem notBefore, List.idxOf_cons_self, Nat.add_zero]
      exact List.idxOf_lt_length_iff.mpr (List.mem_reverse.mpr member)

open Classical in
/-- The positions in the reverse postorder are a search order. -/
noncomputable def searchOrder (isPostorder : IsPostorder edge entry postorder) :
    SearchOrder edge entry where
  rank := postorder.reverse.idxOf
  tree := fun node =>
    if has : Reachable edge entry node ∧ node ≠ entry then
      (isPostorder.exists_earlier has.1 has.2).choose
    else entry
  rank_injective := by
    intro first second firstReached secondReached same
    rw [← isPostorder.mem_reverse_iff] at firstReached secondReached
    exact (List.idxOf_inj firstReached).mp same
  rank_entry := by
    rw [isPostorder.reverse_eq_cons, List.idxOf_cons_self]
  tree_edge := by
    intro node reached notEntry
    simp only [reached, notEntry, ne_eq, not_false_eq_true, and_self, dif_pos]
    exact (isPostorder.exists_earlier reached notEntry).choose_spec.1
  tree_reachable := by
    intro node reached notEntry
    simp only [reached, notEntry, ne_eq, not_false_eq_true, and_self, dif_pos]
    exact (isPostorder.exists_earlier reached notEntry).choose_spec.2.1
  tree_rank := by
    intro node reached notEntry
    simp only [reached, notEntry, ne_eq, not_false_eq_true, and_self, dif_pos]
    exact (isPostorder.exists_earlier reached notEntry).choose_spec.2.2

end IsPostorder

/-- What holds of the tentative parents after any number of steps: parents have
lower rank, are reached through nodes of no lower rank than themselves, and the
dominators of a node are among its ancestors. -/
structure PartialTree (order : SearchOrder edge entry) (idoms : Node → Option Node) :
    Prop where
  root : idoms entry = some entry
  reachable : ∀ {node}, Processed idoms node → Reachable edge entry node
  closed : ∀ node parent, idoms node = some parent → Processed idoms parent
  rank_lt : ∀ {node parent}, idoms node = some parent → node ≠ entry →
    order.rank parent < order.rank node
  walk : ∀ {node parent}, idoms node = some parent →
    ∃ visited, Walk edge parent visited node ∧
      ∀ other ∈ visited, order.rank parent ≤ order.rank other
  dominators : ∀ {dominator node}, Processed idoms node →
    Dominates edge entry dominator node → Ancestor idoms dominator node
  tree_processed : ∀ {node}, Processed idoms node → node ≠ entry → Processed idoms (order.tree node)

namespace PartialTree

variable {order : SearchOrder edge entry} {idoms : Node → Option Node}
variable {ancestor other node parent : Node}

section

variable (forest : PartialTree order idoms)

include forest

theorem ancestor_processed (above : Ancestor idoms ancestor node)
    (isProcessed : Processed idoms node) : Processed idoms ancestor :=
  above.processed forest.closed isProcessed

theorem rank_le (above : Ancestor idoms ancestor node) : order.rank ancestor ≤ order.rank node := by
  induction above using Relation.ReflTransGen.head_induction_on with
  | refl => exact Nat.le_refl _
  | @head child parent isParent _ smaller =>
    by_cases atEntry : child = entry
    · subst atEntry
      rw [forest.root] at isParent
      cases isParent
      exact smaller
    · exact Nat.le_trans smaller (Nat.le_of_lt (forest.rank_lt isParent atEntry))

theorem eq_of_rank_eq (above : Ancestor idoms ancestor node) (isProcessed : Processed idoms node)
    (same : order.rank ancestor = order.rank node) : ancestor = node :=
  order.rank_injective (forest.reachable (forest.ancestor_processed above isProcessed))
    (forest.reachable isProcessed) same

/-- Along the chain of a node, lower rank means further up. -/
theorem ancestor_of_rank_le (isProcessed : Processed idoms node)
    (first : Ancestor idoms ancestor node) (second : Ancestor idoms other node)
    (lower : order.rank ancestor ≤ order.rank other) : Ancestor idoms ancestor other := by
  rcases first.total second with above | below
  · exact above
  · have same := forest.eq_of_rank_eq below (forest.ancestor_processed first isProcessed)
      (Nat.le_antisymm (forest.rank_le below) lower)
    rw [same]
    exact Ancestor.refl idoms ancestor

/-- From an ancestor the node is reached through nodes of no lower rank. -/
theorem exists_walk (above : Ancestor idoms ancestor node) :
    ∃ visited, Walk edge ancestor visited node ∧
      ∀ other ∈ visited, order.rank ancestor ≤ order.rank other := by
  induction above using Relation.ReflTransGen.head_induction_on with
  | refl =>
    refine ⟨[ancestor], .start, ?_⟩
    intro other member
    exact Nat.le_of_eq (congrArg order.rank (List.mem_singleton.mp member).symm)
  | @head child parent isParent above reached =>
    rcases reached with ⟨front, first, high⟩
    rcases forest.walk isParent with ⟨back, second, higher⟩
    rcases first.append second with ⟨visited, walk, visits⟩
    refine ⟨visited, walk, ?_⟩
    intro other member
    rcases (visits other).mp member with member | member
    · exact high other member
    · exact Nat.le_trans (forest.rank_le above) (higher other member)

/-- A dominator of lower rank than an ancestor dominates the ancestor. -/
theorem dominates_ancestor {dominator : Node} (isProcessed : Processed idoms node)
    (above : Ancestor idoms ancestor node) (dominates : Dominates edge entry dominator node)
    (lower : order.rank dominator < order.rank ancestor) :
    Dominates edge entry dominator ancestor := by
  rcases forest.exists_walk above with ⟨visited, walk, high⟩
  refine dominates.of_walk_avoiding
    (forest.reachable (forest.ancestor_processed above isProcessed)) walk ?_
  intro member
  exact absurd (high dominator member) (Nat.not_le.mpr lower)

end

end PartialTree

/-! ## One step -/

def ProcessedPredecessor (edge : Node → Node → Prop) (idoms : Node → Option Node)
    (node predecessor : Node) : Prop :=
  edge predecessor node ∧ Processed idoms predecessor

/-- What holds when the pass over the order has come to `position`. Where the
node is not yet visited in this pass, its parent may already be stale: it lies on
the chain of the node's tree predecessor only if its own rank is not yet passed. -/
structure PassInvariant (order : SearchOrder edge entry) (position : ℕ)
    (idoms : Node → Option Node) : Prop extends PartialTree order idoms where
  processed : ∀ {node}, Reachable edge entry node → order.rank node < position →
    Processed idoms node
  meets : ∀ {node parent candidate}, node ≠ entry → idoms node = some parent →
    (∀ predecessor, ProcessedPredecessor edge idoms node predecessor →
      Ancestor idoms candidate predecessor) → order.rank candidate ≤ order.rank parent
  below : ∀ {node parent}, node ≠ entry → idoms node = some parent →
    order.rank node < position ∨ position ≤ order.rank parent →
    Ancestor idoms parent (order.tree node)
  nested : ∀ {node parent candidate}, node ≠ entry → idoms node = some parent →
    Ancestor idoms candidate (order.tree node) →
    order.rank candidate ≤ order.rank parent → Ancestor idoms candidate parent

/-- Before the first pass only the entry has a parent, itself. -/
theorem PassInvariant.start [DecidableEq Node] (order : SearchOrder edge entry) :
    PassInvariant order 1 (Function.update (fun _ => none) entry (some entry)) := by
  have only : ∀ {node parent : Node},
      Function.update (fun _ => none) entry (some entry) node = some parent →
      node = entry ∧ parent = entry := by
    intro node parent isParent
    by_cases atEntry : node = entry
    · rw [atEntry, Function.update_self] at isParent
      exact ⟨atEntry, (Option.some_inj.mp isParent).symm⟩
    · rw [Function.update_of_ne atEntry] at isParent
      cases isParent
  have root : Function.update (fun _ => none) entry (some entry) entry = some entry :=
    Function.update_self ..
  refine { root, reachable := ?_, closed := ?_, rank_lt := ?_, walk := ?_, dominators := ?_,
           tree_processed := ?_, processed := ?_, meets := ?_, below := ?_, nested := ?_ }
  · rintro node ⟨parent, isParent⟩
    rw [(only isParent).1]
    exact Reachable.root
  · intro node parent isParent
    rw [(only isParent).2]
    exact ⟨entry, root⟩
  · intro node parent isParent notEntry
    exact absurd (only isParent).1 notEntry
  · intro node parent isParent
    rw [(only isParent).1, (only isParent).2]
    refine ⟨[entry], .start, ?_⟩
    intro other member
    exact Nat.le_of_eq (congrArg order.rank (List.mem_singleton.mp member).symm)
  · rintro dominator node ⟨parent, isParent⟩ dominates
    rw [(only isParent).1] at dominates ⊢
    rw [dominates_entry_iff.mp dominates]
    exact Ancestor.refl _ entry
  · rintro node ⟨parent, isParent⟩ notEntry
    exact absurd (only isParent).1 notEntry
  · intro node reached atFront
    have same : node = entry := by
      refine order.rank_injective reached Reachable.root ?_
      rw [order.rank_entry]
      omega
    exact ⟨entry, by rw [same, root]⟩
  · intro node parent candidate notEntry isParent
    exact absurd (only isParent).1 notEntry
  · intro node parent notEntry isParent
    exact absurd (only isParent).1 notEntry
  · intro node parent candidate notEntry isParent
    exact absurd (only isParent).1 notEntry

namespace PassInvariant

variable {order : SearchOrder edge entry} {position : ℕ} {idoms : Node → Option Node}
variable {ancestor other node parent meet : Node}

/-- A finished pass has passed every parent, so the next may begin. -/
theorem restart {finish : ℕ} (invariant : PassInvariant order finish idoms)
    (isLast : ∀ {node}, Reachable edge entry node → order.rank node < finish) : PassInvariant order position idoms :=
  { invariant with
    processed := fun reached _ => invariant.processed reached (isLast reached)
    below := fun notEntry isParent _ =>
      invariant.below notEntry isParent (Or.inl (isLast (invariant.reachable ⟨_, isParent⟩))) }

section

variable (invariant : PassInvariant order position idoms) (reached : Reachable edge entry node)
  (notEntry : node ≠ entry) (isNext : order.rank node = position)
  (isMeet : IsMeet idoms (ProcessedPredecessor edge idoms node) meet)

include invariant reached notEntry isNext isMeet

/-- The meet of the processed predecessors is above the tree predecessor. -/
theorem meet_above_tree : Ancestor idoms meet (order.tree node) := by
  refine (isMeet meet).mp (Ancestor.refl idoms meet) _ ⟨order.tree_edge reached notEntry, ?_⟩
  refine invariant.processed (order.tree_reachable reached notEntry) ?_
  rw [← isNext]
  exact order.tree_rank reached notEntry

theorem meet_above_parent (isParent : idoms node = some parent) :
    Ancestor idoms meet parent ∧ order.rank meet ≤ order.rank parent := by
  have lower : order.rank meet ≤ order.rank parent :=
    invariant.meets notEntry isParent ((isMeet meet).mp (Ancestor.refl idoms meet))
  exact ⟨invariant.nested notEntry isParent
    (invariant.meet_above_tree reached notEntry isNext isMeet) lower, lower⟩

end

section Step

variable [DecidableEq Node]

/-- A step only removes ancestors. -/
theorem step_shrinks (invariant : PassInvariant order position idoms)
    (reached : Reachable edge entry node) (notEntry : node ≠ entry)
    (isNext : order.rank node = position)
    (isMeet : IsMeet idoms (ProcessedPredecessor edge idoms node) meet)
    (isProcessed : Processed idoms other)
    (above : Ancestor (Function.update idoms node (some meet)) ancestor other) :
    Ancestor idoms ancestor other := by
  induction above with
  | refl => exact Ancestor.refl idoms other
  | @tail child parent _ isParent above =>
    by_cases atNode : child = node
    · rcases invariant.ancestor_processed above isProcessed with ⟨old, isOld⟩
      rw [atNode, Function.update_self] at isParent
      cases isParent
      rw [atNode] at isOld above
      have up := (invariant.meet_above_parent reached notEntry isNext isMeet isOld).1
      exact (up.of_parent isOld).trans above
    · rw [Function.update_of_ne atNode] at isParent
      exact ((Ancestor.refl idoms parent).of_parent isParent).trans above

/-- Chains that do not pass through the node keep their ancestors. -/
theorem step_keeps_of_not_above (notAbove : ¬ Ancestor idoms node other)
    (above : Ancestor idoms ancestor other) :
    Ancestor (Function.update idoms node (some meet)) ancestor other := by
  induction above with
  | refl => exact Ancestor.refl _ other
  | @tail child parent isAbove isParent above =>
    have different : child ≠ node := by
      rintro rfl
      exact notAbove isAbove
    refine Ancestor.trans ((Ancestor.refl _ parent).of_parent ?_) above
    rw [Function.update_of_ne different]
    exact isParent

/-- Chains of lower rank than the node do not pass through it. -/
theorem step_keeps_of_lower (invariant : PassInvariant order position idoms)
    (lower : order.rank other < order.rank node) (above : Ancestor idoms ancestor other) :
    Ancestor (Function.update idoms node (some meet)) ancestor other := by
  refine step_keeps_of_not_above ?_ above
  intro isAbove
  exact absurd (invariant.rank_le isAbove) (Nat.not_le.mpr lower)

/-- Ancestors of no lower rank than the node are met before it on every chain. -/
theorem step_keeps_of_higher (invariant : PassInvariant order position idoms)
    (notEntry : node ≠ entry) (higher : order.rank node ≤ order.rank ancestor)
    (above : Ancestor idoms ancestor other) :
    Ancestor (Function.update idoms node (some meet)) ancestor other := by
  induction above using Relation.ReflTransGen.head_induction_on with
  | refl => exact Ancestor.refl _ ancestor
  | @head child parent isParent above kept =>
    have different : child ≠ node := by
      rintro rfl
      have lower := invariant.rank_lt isParent notEntry
      have below := invariant.rank_le above
      omega
    refine kept.of_parent ?_
    rw [Function.update_of_ne different]
    exact isParent

/-- The parents after a step: the node's is the meet, the others' are as before. -/
theorem step_cases {child parent : Node}
    (isParent : Function.update idoms node (some meet) child = some parent) :
    (child = node ∧ parent = meet) ∨ (child ≠ node ∧ idoms child = some parent) := by
  by_cases atNode : child = node
  · rw [atNode, Function.update_self] at isParent
    exact Or.inl ⟨atNode, (Option.some_inj.mp isParent).symm⟩
  · rw [Function.update_of_ne atNode] at isParent
    exact Or.inr ⟨atNode, isParent⟩

theorem step_processed_iff : Processed (Function.update idoms node (some meet)) other ↔
    other = node ∨ Processed idoms other := by
  constructor
  · rintro ⟨parent, isParent⟩
    rcases step_cases isParent with ⟨atNode, _⟩ | ⟨_, isParent⟩
    · exact Or.inl atNode
    · exact Or.inr ⟨parent, isParent⟩
  · intro either
    by_cases atNode : other = node
    · exact ⟨meet, by rw [atNode, Function.update_self]⟩
    · rcases either with same | ⟨parent, isParent⟩
      · exact absurd same atNode
      · exact ⟨parent, by rw [Function.update_of_ne atNode]; exact isParent⟩

section

variable (invariant : PassInvariant order position idoms) (reached : Reachable edge entry node)
  (notEntry : node ≠ entry) (isNext : order.rank node = position)
  (isMeet : IsMeet idoms (ProcessedPredecessor edge idoms node) meet)

include invariant reached notEntry isNext isMeet

/-- A step keeps the invariant of the parent map. -/
theorem step_partialTree : PartialTree order (Function.update idoms node (some meet)) := by
  have aboveTree := invariant.meet_above_tree reached notEntry isNext isMeet
  have treeEdge := order.tree_edge reached notEntry
  have treeRank := order.tree_rank reached notEntry
  have treeProcessed : Processed idoms (order.tree node) :=
    invariant.processed (order.tree_reachable reached notEntry) (isNext ▸ treeRank)
  have meetProcessed := invariant.ancestor_processed aboveTree treeProcessed
  have meetRank : order.rank meet < order.rank node :=
    Nat.lt_of_le_of_lt (invariant.rank_le aboveTree) treeRank
  -- the dominators of the node are ancestors of the meet
  have atNode : ∀ dominator, Dominates edge entry dominator node →
      Ancestor (Function.update idoms node (some meet)) dominator node := by
    intro dominator dominates
    by_cases same : dominator = node
    · rw [same]
      exact Ancestor.refl _ node
    · have above : Ancestor idoms dominator meet := by
        refine (isMeet dominator).mpr ?_
        rintro predecessor ⟨follows, isProcessed⟩
        exact invariant.dominators isProcessed
          (dominates.of_edge same (invariant.reachable isProcessed) follows)
      exact (invariant.step_keeps_of_lower meetRank above).of_parent (Function.update_self ..)
  refine { root := ?_, reachable := ?_, closed := ?_, rank_lt := ?_, walk := ?_,
           dominators := ?_, tree_processed := ?_ }
  · rw [Function.update_of_ne (Ne.symm notEntry)]
    exact invariant.root
  · intro other isProcessed
    rcases step_processed_iff.mp isProcessed with rfl | isProcessed
    · exact reached
    · exact invariant.reachable isProcessed
  · intro child parent isParent
    rw [step_processed_iff]
    rcases step_cases isParent with ⟨_, rfl⟩ | ⟨_, isParent⟩
    · exact Or.inr meetProcessed
    · exact Or.inr (invariant.closed child parent isParent)
  · intro child parent isParent childNotEntry
    rcases step_cases isParent with ⟨rfl, rfl⟩ | ⟨_, isParent⟩
    · exact meetRank
    · exact invariant.rank_lt isParent childNotEntry
  · intro child parent isParent
    rcases step_cases isParent with ⟨rfl, rfl⟩ | ⟨_, isParent⟩
    · rcases invariant.exists_walk aboveTree with ⟨visited, walk, high⟩
      refine ⟨child :: visited, .step walk treeEdge, ?_⟩
      intro other member
      rcases List.mem_cons.mp member with rfl | member
      · exact Nat.le_of_lt meetRank
      · exact high other member
    · exact invariant.walk isParent
  · intro dominator other isProcessed dominates
    rcases step_processed_iff.mp isProcessed with rfl | isProcessed
    · exact atNode dominator dominates
    · have above := invariant.dominators isProcessed dominates
      by_cases passes : Ancestor idoms node other
      · by_cases higher : order.rank node ≤ order.rank dominator
        · exact invariant.step_keeps_of_higher notEntry higher above
        · have dominatesNode := invariant.dominates_ancestor isProcessed passes dominates
            (Nat.not_le.mp higher)
          exact (atNode dominator dominatesNode).trans
            (invariant.step_keeps_of_higher notEntry (Nat.le_refl _) passes)
      · exact step_keeps_of_not_above passes above
  · intro other isProcessed otherNotEntry
    rw [step_processed_iff]
    rcases step_processed_iff.mp isProcessed with rfl | isProcessed
    · exact Or.inr treeProcessed
    · exact Or.inr (invariant.tree_processed isProcessed otherNotEntry)

/-- One step of a pass moves the invariant to the next position. -/
theorem step : PassInvariant order (position + 1) (Function.update idoms node (some meet)) := by
  have forest := invariant.step_partialTree reached notEntry isNext isMeet
  have aboveTree := invariant.meet_above_tree reached notEntry isNext isMeet
  have sameRank : ∀ {other : Node}, Reachable edge entry other →
      order.rank other = position → other = node := by
    intro other otherReached same
    exact order.rank_injective otherReached reached (same.trans isNext.symm)
  have below : ∀ {child parent : Node}, child ≠ entry →
      Function.update idoms node (some meet) child = some parent →
      order.rank child < position + 1 ∨ position + 1 ≤ order.rank parent →
      Ancestor (Function.update idoms node (some meet)) parent (order.tree child) := by
    intro child parent childNotEntry isParent passed
    rcases step_cases isParent with ⟨rfl, rfl⟩ | ⟨different, isParent⟩
    · exact invariant.step_keeps_of_lower (order.tree_rank reached notEntry) aboveTree
    · have childReached := invariant.reachable ⟨parent, isParent⟩
      have otherRank : order.rank child ≠ position := fun same =>
        different (sameRank childReached same)
      rcases passed with done | pending
      · refine invariant.step_keeps_of_lower ?_
          (invariant.below childNotEntry isParent (Or.inl (by omega)))
        have := order.tree_rank childReached childNotEntry
        omega
      · exact invariant.step_keeps_of_higher notEntry (by omega)
          (invariant.below childNotEntry isParent (Or.inr (by omega)))
  refine { forest with processed := ?_, meets := ?_, below := below, nested := ?_ }
  · intro other otherReached passed
    rw [step_processed_iff]
    rcases Nat.lt_succ_iff_lt_or_eq.mp passed with earlier | same
    · exact Or.inr (invariant.processed otherReached earlier)
    · exact Or.inl (sameRank otherReached same)
  · intro child parent candidate childNotEntry isParent common
    have wasCommon : ∀ predecessor, ProcessedPredecessor edge idoms child predecessor →
        Ancestor idoms candidate predecessor := by
      rintro predecessor ⟨follows, isProcessed⟩
      exact invariant.step_shrinks reached notEntry isNext isMeet isProcessed
        (common predecessor ⟨follows, step_processed_iff.mpr (Or.inr isProcessed)⟩)
    rcases step_cases isParent with ⟨rfl, rfl⟩ | ⟨_, isParent⟩
    · exact invariant.rank_le ((isMeet candidate).mpr wasCommon)
    · exact invariant.meets childNotEntry isParent wasCommon
  · intro child parent candidate childNotEntry isParent above lower
    have treeProcessed := forest.tree_processed ⟨parent, isParent⟩ childNotEntry
    -- where the parent is still on the chain of the tree predecessor, the chain decides
    have onChain : Ancestor (Function.update idoms node (some meet)) parent (order.tree child) →
        Ancestor (Function.update idoms node (some meet)) candidate parent :=
      fun isBelow => forest.ancestor_of_rank_le treeProcessed above isBelow lower
    by_cases atNode : child = node
    · refine onChain (below childNotEntry isParent (Or.inl ?_))
      rw [atNode, isNext]
      exact Nat.lt_succ_self position
    · have wasParent : idoms child = some parent := by
        rwa [Function.update_of_ne atNode] at isParent
      have wasProcessed := invariant.tree_processed ⟨parent, wasParent⟩ childNotEntry
      rcases Nat.lt_trichotomy (order.rank parent) position with earlier | same | later
      · exact invariant.step_keeps_of_lower (isNext ▸ earlier)
          (invariant.nested childNotEntry wasParent
            (invariant.step_shrinks reached notEntry isNext isMeet wasProcessed above) lower)
      · refine onChain (invariant.step_keeps_of_higher notEntry (by omega)
          (invariant.below childNotEntry wasParent (Or.inr (Nat.le_of_eq same.symm))))
      · exact onChain (below childNotEntry isParent (Or.inr later))

end

end Step

end PassInvariant

/-- Every reachable node is processed, and the parent of each but the entry is the
meet of its processed predecessors. -/
structure IsFixedPoint (order : SearchOrder edge entry) (idoms : Node → Option Node) :
    Prop extends PartialTree order idoms where
  processed : ∀ {node}, Reachable edge entry node → Processed idoms node
  meets : ∀ {node parent}, node ≠ entry → idoms node = some parent →
    IsMeet idoms (ProcessedPredecessor edge idoms node) parent

namespace IsFixedPoint

variable {order : SearchOrder edge entry} {idoms : Node → Option Node}
variable {dominator node parent : Node}

/-- At a fixed point the ancestors of a reachable node are its dominators. -/
theorem ancestor_iff (fixed : IsFixedPoint order idoms) (reached : Reachable edge entry node) :
    Ancestor idoms dominator node ↔ Dominates edge entry dominator node := by
  constructor
  · intro above
    refine ⟨reached, ?_⟩
    intro visited walk
    clear reached
    induction walk with
    | start =>
      have lower := fixed.rank_le above
      have same := fixed.eq_of_rank_eq above (fixed.processed Reachable.root)
        (by rw [order.rank_entry] at lower ⊢; omega)
      rw [same]
      exact List.mem_singleton_self entry
    | @step visited middle target walk follows onWalk =>
      have middleReached : Reachable edge entry middle := ⟨visited, walk⟩
      by_cases same : dominator = target
      · rw [same]
        exact List.mem_cons_self
      · refine List.mem_cons_of_mem _ ?_
        rcases above.cases_node with isSame | ⟨parent, isParent, above⟩
        · exact absurd isSame same
        · by_cases atEntry : target = entry
          · rw [atEntry, fixed.root] at isParent
            cases isParent
            have lower := fixed.rank_le above
            have isEntry := fixed.eq_of_rank_eq above (fixed.processed Reachable.root)
              (by rw [order.rank_entry] at lower ⊢; omega)
            exact absurd (isEntry.trans atEntry.symm) same
          · exact onWalk ((fixed.meets atEntry isParent dominator).mp above middle
              ⟨follows, fixed.processed middleReached⟩)
  · exact fixed.dominators (fixed.processed reached)

/-- At a fixed point the parents are the immediate dominators. -/
theorem immediatelyDominates (fixed : IsFixedPoint order idoms) (notEntry : node ≠ entry)
    (isParent : idoms node = some parent) : ImmediatelyDominates edge entry parent node := by
  have reached := fixed.reachable ⟨parent, isParent⟩
  have parentReached := fixed.reachable (fixed.closed node parent isParent)
  have lower := fixed.rank_lt isParent notEntry
  refine ⟨⟨(fixed.ancestor_iff reached).mp
    ((Ancestor.refl idoms parent).of_parent isParent), ?_⟩, ?_⟩
  · rintro rfl
    exact Nat.lt_irrefl _ lower
  · rintro other ⟨dominates, different⟩
    rcases ((fixed.ancestor_iff reached).mpr dominates).cases_node with
      same | ⟨up, isUp, above⟩
    · exact absurd same different
    · obtain rfl := Option.some_inj.mp (isUp.symm.trans isParent)
      exact (fixed.ancestor_iff parentReached).mp above

end IsFixedPoint

end DaveCC.Graph
