import Mathlib.Data.Finset.Card

/-!
# Marking with a worklist

Nodes are marked from a set of roots along the edges of a graph. The nodes that are left
unmarked are those that nothing marked reaches.
-/

namespace DaveCC.Container

/-- The nodes that are not marked, and the marked ones whose edges are still to be followed. -/
structure Worklist (α : Type) where
  unmarked : Finset α
  pending : List α

namespace Worklist

variable {α : Type} [DecidableEq α]

def mark (node : α) (work : Worklist α) : Worklist α :=
  if node ∈ work.unmarked then ⟨work.unmarked.erase node, work.pending ++ [node]⟩ else work

def markAll (nodes : List α) (work : Worklist α) : Worklist α :=
  nodes.foldl (fun work node => work.mark node) work

/-- The edges of the node that is pending last are followed. -/
def drain (edges : α → List α) : Nat → Worklist α → Worklist α
  | 0, work => work
  | fuel + 1, work =>
    match work.pending.getLast? with
    | none => work
    | some node => drain edges fuel ((Worklist.mk work.unmarked work.pending.dropLast).markAll
        (edges node))

/-- The nodes that edges lead to from the roots, by way of nodes. -/
inductive Reaches (nodes roots : Set α) (edge : α → α → Prop) : α → Prop where
  | root {node : α} : node ∈ nodes → node ∈ roots → Reaches nodes roots edge node
  | edge {source target : α} : Reaches nodes roots edge source → target ∈ nodes →
      edge source target → Reaches nodes roots edge target

omit [DecidableEq α] in
theorem Reaches.mem {nodes roots : Set α} {edge : α → α → Prop} {node : α}
    (reaches : Reaches nodes roots edge node) : node ∈ nodes := by
  cases reaches with
  | root isNode => exact isNode
  | edge _ isNode => exact isNode

omit [DecidableEq α] in
/-- More roots and more edges reach more nodes. -/
theorem Reaches.mono {nodes roots roots' : Set α} {edge edge' : α → α → Prop} {node : α}
    (reaches : Reaches nodes roots edge node) (moreRoots : ∀ node ∈ roots, node ∈ roots')
    (moreEdges : ∀ source ∈ nodes, ∀ target, edge source target → edge' source target) :
    Reaches nodes roots' edge' node := by
  induction reaches with
  | root isNode isRoot => exact .root isNode (moreRoots _ isRoot)
  | edge sourceReaches isNode isEdge ih =>
    exact .edge ih isNode (moreEdges _ sourceReaches.mem _ isEdge)

variable {work : Worklist α} {node : α} {edges : α → List α}

def size (work : Worklist α) : Nat :=
  work.unmarked.card + work.pending.length

@[simp] theorem size_mark : (work.mark node).size = work.size := by
  rw [mark]
  split
  · next isUnmarked =>
      rw [size, List.length_append, List.length_singleton, size,
        ← Finset.card_erase_add_one isUnmarked, Nat.add_assoc, Nat.add_comm 1]
  · rfl

@[simp] theorem size_markAll (nodes : List α) : (work.markAll nodes).size = work.size := by
  induction nodes generalizing work with
  | nil => rfl
  | cons head rest ih => exact ih.trans size_mark

theorem pending_drain (fuel : Nat) (enough : work.size ≤ fuel) :
    (work.drain edges fuel).pending = [] := by
  induction fuel generalizing work with
  | zero =>
    exact List.eq_nil_of_length_eq_zero (Nat.eq_zero_of_add_eq_zero_left (Nat.le_zero.mp enough))
  | succ fuel ih =>
    rw [drain]
    cases last : work.pending.getLast? with
    | none => exact List.getLast?_eq_none_iff.mp last
    | some node =>
      apply ih
      have nonempty : 0 < work.pending.length := by
        apply List.length_pos_of_ne_nil
        intro empty
        rw [empty] at last
        cases last
      have fewer : (Worklist.mk work.unmarked work.pending.dropLast).size + 1 = work.size := by
        rw [size, size, List.length_dropLast, Nat.add_assoc, Nat.sub_add_cancel nonempty]
      rw [size_markAll]
      exact Nat.le_of_succ_le_succ (fewer.le.trans enough)

/-! ## Soundness -/

/-- What marking keeps: only what is reached is marked, and the edges of marked nodes lead to
marked ones, but for the pending nodes and those whose edges are being followed. -/
structure Marks (nodes roots : Set α) (edges : α → List α) (exempt : Set α) (work : Worklist α) :
    Prop where
  unmarked : ∀ node ∈ work.unmarked, node ∈ nodes
  pending : ∀ node ∈ work.pending, node ∈ nodes ∧ node ∉ work.unmarked
  reached : ∀ node ∈ nodes, node ∉ work.unmarked →
    Reaches nodes roots (fun source target => target ∈ edges source) node
  closed : ∀ source ∈ nodes, source ∉ work.unmarked → source ∉ work.pending → source ∉ exempt →
    ∀ target ∈ nodes, target ∈ edges source → target ∉ work.unmarked

variable {nodes roots exempt : Set α}

theorem not_mem_unmarked_mark : node ∉ (work.mark node).unmarked := by
  rw [mark]
  split
  · exact Finset.notMem_erase node work.unmarked
  · next isMarked => exact isMarked

variable {other : α}

theorem unmarked_mark_subset (unmarked : other ∈ (work.mark node).unmarked) :
    other ∈ work.unmarked := by
  rw [mark] at unmarked
  split at unmarked
  · exact Finset.mem_of_mem_erase unmarked
  · exact unmarked

theorem Marks.mark (marks : Marks nodes roots edges exempt work)
    (reaches : node ∈ nodes → Reaches nodes roots (fun source target => target ∈ edges source)
      node) :
    Marks nodes roots edges exempt (work.mark node) := by
  rw [Worklist.mark]
  split
  case isFalse => exact marks
  case isTrue isUnmarked =>
    have isNode := marks.unmarked node isUnmarked
    constructor
    · intro other isIn
      exact marks.unmarked other (Finset.mem_of_mem_erase isIn)
    · intro other isIn
      cases List.mem_append.mp isIn with
      | inl before =>
        have ⟨otherIsNode, isMarked⟩ := marks.pending other before
        exact ⟨otherIsNode, fun isIn => isMarked (Finset.mem_of_mem_erase isIn)⟩
      | inr last =>
        rw [List.mem_singleton.mp last]
        exact ⟨isNode, Finset.notMem_erase node work.unmarked⟩
    · intro other otherIsNode isMarked
      by_cases same : other = node
      · rw [same]
        exact reaches isNode
      · apply marks.reached other otherIsNode
        intro isIn
        exact isMarked (Finset.mem_erase.mpr ⟨same, isIn⟩)
    · intro source sourceIsNode isMarked notPending other target targetIsNode isEdge isIn
      have notSame : source ≠ node := by
        intro same
        exact notPending (List.mem_append_right _ (List.mem_singleton.mpr same))
      refine marks.closed source sourceIsNode ?_ ?_ other target targetIsNode isEdge
        (Finset.mem_of_mem_erase isIn)
      · intro sourceIsIn
        exact isMarked (Finset.mem_erase.mpr ⟨notSame, sourceIsIn⟩)
      · intro sourceIsIn
        exact notPending (List.mem_append_left _ sourceIsIn)

theorem Marks.markAll (marks : Marks nodes roots edges exempt work) (targets : List α)
    (reaches : ∀ target ∈ targets, target ∈ nodes → Reaches nodes roots (fun source target =>
      target ∈ edges source) target) : Marks nodes roots edges exempt (work.markAll targets) := by
  induction targets generalizing work with
  | nil => exact marks
  | cons head rest ih =>
    exact ih (marks.mark (reaches head List.mem_cons_self))
      fun target isIn => reaches target (List.mem_cons_of_mem _ isIn)

variable {targets : List α}

theorem unmarked_markAll_subset (unmarked : other ∈ (work.markAll targets).unmarked) :
    other ∈ work.unmarked := by
  induction targets generalizing work with
  | nil => exact unmarked
  | cons head rest ih => exact unmarked_mark_subset (ih unmarked)

theorem not_mem_unmarked_markAll {target : α} (isIn : target ∈ targets) :
    target ∉ (work.markAll targets).unmarked := by
  induction targets generalizing work with
  | nil => exact absurd isIn List.not_mem_nil
  | cons head rest ih =>
    cases List.mem_cons.mp isIn with
    | inl same =>
      rw [same]
      exact fun unmarked => not_mem_unmarked_mark (unmarked_markAll_subset unmarked)
    | inr later => exact ih later

/-- Following the edges of a pending node. -/
theorem Marks.follow (marks : Marks nodes roots edges ∅ work)
    (last : work.pending.getLast? = some node) :
    Marks nodes roots edges ∅
      ((Worklist.mk work.unmarked work.pending.dropLast).markAll (edges node)) := by
  have isPending : node ∈ work.pending := List.mem_of_getLast? last
  have ⟨isNode, isMarked⟩ := marks.pending node isPending
  have reaches := marks.reached node isNode isMarked
  have split : work.pending = work.pending.dropLast ++ [node] :=
    (List.dropLast_append_getLast? node last).symm
  have popped : Marks nodes roots edges {node}
      (Worklist.mk work.unmarked work.pending.dropLast) := by
    constructor
    · exact marks.unmarked
    · intro other isIn
      exact marks.pending other (List.mem_of_mem_dropLast isIn)
    · exact marks.reached
    · intro source sourceIsNode sourceIsMarked notPending other
      refine marks.closed source sourceIsNode sourceIsMarked ?_ (Set.notMem_empty source)
      rw [split]
      intro isIn
      cases List.mem_append.mp isIn with
      | inl before => exact notPending before
      | inr isLast => exact other (Set.mem_singleton_iff.mpr (List.mem_singleton.mp isLast))
  have followed := popped.markAll (edges node)
    fun target isEdge targetIsNode => .edge reaches targetIsNode isEdge
  refine ⟨followed.unmarked, followed.pending, followed.reached, ?_⟩
  intro source sourceIsNode sourceIsMarked notPending _ target targetIsNode isEdge
  by_cases same : source = node
  · rw [same] at isEdge
    exact not_mem_unmarked_markAll isEdge
  · exact followed.closed source sourceIsNode sourceIsMarked notPending
      (fun isIn => same (Set.mem_singleton_iff.mp isIn)) target targetIsNode isEdge

theorem Marks.drain (marks : Marks nodes roots edges ∅ work) (fuel : Nat) :
    Marks nodes roots edges ∅ (work.drain edges fuel) := by
  induction fuel generalizing work with
  | zero => exact marks
  | succ fuel ih =>
    rw [Worklist.drain]
    cases last : work.pending.getLast? with
    | none => exact marks
    | some node => exact ih (marks.follow last)

theorem unmarked_drain_subset (fuel : Nat) (unmarked : other ∈ (work.drain edges fuel).unmarked) :
    other ∈ work.unmarked := by
  induction fuel generalizing work with
  | zero => exact unmarked
  | succ fuel ih =>
    rw [Worklist.drain] at unmarked
    cases last : work.pending.getLast? with
    | none =>
      rw [last] at unmarked
      exact unmarked
    | some node =>
      rw [last] at unmarked
      have before := unmarked_markAll_subset (ih unmarked)
      exact before

/-- From marked roots, what stays unmarked is what is not reached. -/
theorem mem_unmarked_drain_iff (marks : Marks nodes roots edges ∅ work)
    (rooted : ∀ root ∈ roots, root ∉ work.unmarked) (fuel : Nat) (enough : work.size ≤ fuel)
    (isNode : node ∈ nodes) :
    node ∈ (work.drain edges fuel).unmarked ↔
      ¬Reaches nodes roots (fun source target => target ∈ edges source) node := by
  have drained := marks.drain fuel
  constructor
  · intro unmarked reaches
    induction reaches with
    | root _ isRoot => exact rooted _ isRoot (unmarked_drain_subset fuel unmarked)
    | edge sourceReaches targetIsNode isEdge ih =>
      have sourceIsNode := sourceReaches.mem
      refine drained.closed _ sourceIsNode (ih sourceIsNode) ?_ (Set.notMem_empty _) _ targetIsNode
        isEdge unmarked
      rw [pending_drain fuel enough]
      exact List.not_mem_nil
  · intro unreached
    by_contra marked
    exact unreached (drained.reached node isNode marked)

end Worklist

end DaveCC.Container
