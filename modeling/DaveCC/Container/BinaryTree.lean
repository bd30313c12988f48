import DaveCC.Container.RedBlack
import Mathlib.Order.Defs.LinearOrder

/-!
# The symbol tree

The red-black tree of `binary_tree.c`, whose nodes point to their children and to their
parent. The nodes are in a store by their addresses, and a dereferenced null pointer is an
absent result. The comparison functions compare keys, which are beside the header of a
node in the structure that contains it. The fix-up after an insertion treats the two sides
of a node alike. A loop and a recursion have fuel.
-/

namespace DaveCC.Container

abbrev Address := ℕ

/-- `BinaryTreeNode`, with the key of the structure around it. -/
structure BinaryTreeNode (Key : Type) where
  key : Key
  color : Color := .red
  left : Option Address := none
  right : Option Address := none
  parent : Option Address := none

/-- `BinaryTree`, with the store of its nodes. -/
structure BinaryTree (Key : Type) where
  root : Option Address := none
  nodes : Address → BinaryTreeNode Key

variable {Key : Type}

namespace BinaryTreeNode

variable (node : BinaryTreeNode Key)

def child (side : Side) : Option Address :=
  match side with
  | .left => node.left
  | .right => node.right

def setChild (side : Side) (pointer : Option Address) : BinaryTreeNode Key :=
  match side with
  | .left => { node with left := pointer }
  | .right => { node with right := pointer }

end BinaryTreeNode

namespace BinaryTree

variable (tree : BinaryTree Key)

/-- Change the node at an address. -/
def modify (address : Address) (change : BinaryTreeNode Key → BinaryTreeNode Key) :
    BinaryTree Key :=
  { tree with nodes := Function.update tree.nodes address (change (tree.nodes address)) }

def setColor (address : Address) (color : Color) : BinaryTree Key :=
  tree.modify address fun node => { node with color := color }

def setParent (address : Address) (parent : Option Address) : BinaryTree Key :=
  tree.modify address fun node => { node with parent := parent }

def setChild (address : Address) (side : Side) (pointer : Option Address) : BinaryTree Key :=
  tree.modify address (·.setChild side pointer)

/-- Whether a pointer is to a red node. -/
def isRed (pointer : Option Address) : Bool :=
  pointer.any fun address => (tree.nodes address).color == .red

end BinaryTree

/-- Change the parent of the node that a pointer points to, if any. -/
def BinaryTree.setParentOf (tree : BinaryTree Key) (pointer : Option Address)
    (parent : Option Address) : BinaryTree Key :=
  match pointer with
  | some address => tree.setParent address parent
  | none => tree

/-- Let `y` take the place of `x` below a parent, or at the root. -/
def BinaryTree.replaceChild (tree : BinaryTree Key) (parent : Option Address) (x y : Address) :
    BinaryTree Key :=
  match parent with
  | none => { tree with root := some y }
  | some parent =>
    if some x = (tree.nodes parent).left then tree.setChild parent .left (some y)
    else tree.setChild parent .right (some y)

/-- A rotation around `x` to a side: its child on the opposite one takes its place. -/
def rotate (side : Side) (tree : BinaryTree Key) (x : Address) : Option (BinaryTree Key) := do
  let y ← (tree.nodes x).child side.opposite
  let inner := (tree.nodes y).child side
  let tree := tree.setChild x side.opposite inner
  let tree := tree.setParentOf inner (some x)
  let tree := tree.setParent y (tree.nodes x).parent
  let tree := tree.replaceChild (tree.nodes x).parent x y
  let tree := tree.setChild y side (some x)
  return tree.setParent x (some y)

def rotateLeft (tree : BinaryTree Key) (x : Address) : Option (BinaryTree Key) :=
  rotate .left tree x

def rotateRight (tree : BinaryTree Key) (x : Address) : Option (BinaryTree Key) :=
  rotate .right tree x

/-- A pointer that points to a node: the root of the tree, or a child of a node. -/
inductive TreeSlot where
  | root
  | child (address : Address) (side : Side)

namespace TreeSlot

/-- What a slot holds. -/
def read (tree : BinaryTree Key) : TreeSlot → Option Address
  | root => tree.root
  | child address side => (tree.nodes address).child side

/-- Put a node into a slot. -/
def write (tree : BinaryTree Key) (node : Address) : TreeSlot → BinaryTree Key
  | root => { tree with root := some node }
  | child address side => tree.setChild address side (some node)

end TreeSlot

def insertNode [LinearOrder Key] (node : Address) :
    ℕ → BinaryTree Key → TreeSlot → Option Address → Option (Bool × BinaryTree Key)
  | 0, _, _, _ => none
  | fuel + 1, tree, slot, parent =>
    match slot.read tree with
    | none => some (true, (slot.write tree node).setParent node parent)
    | some root =>
      match compare (tree.nodes root).key (tree.nodes node).key with
      | .eq => some (false, tree)
      | .gt => insertNode node fuel tree (.child root .left) (some root)
      | .lt => insertNode node fuel tree (.child root .right) (some root)

/-- Swap the colours of the parent and the grandparent of `x`, and rotate around the
grandparent away from a side. -/
def raiseParent (side : Side) (tree : BinaryTree Key) (x : Address) :
    Option (Address × BinaryTree Key) := do
  let p ← (tree.nodes x).parent
  let tree := tree.setColor p .black
  let g ← (tree.nodes p).parent
  let tree := tree.setColor g .red
  let tree ← rotate side.opposite tree g
  return (x, tree)

/-- The step of the fix-up when the parent `p` of `x` is on a side of the grandparent `g`:
the node to go on from, and the tree. -/
def fixUpAside (side : Side) (tree : BinaryTree Key) (x p g : Address) :
    Option (Address × BinaryTree Key) :=
  let aunt := (tree.nodes g).child side.opposite
  if tree.isRed aunt then do
    let aunt ← aunt
    return (g, ((tree.setColor p .black).setColor aunt .black).setColor g .red)
  else if some x = (tree.nodes p).child side.opposite then do
    let tree ← rotate side tree p
    raiseParent side tree p
  else raiseParent side tree x

/-- The loop of `BinaryTreeNodeInsert`. -/
def fixUp : ℕ → BinaryTree Key → Address → Option (BinaryTree Key)
  | 0, _, _ => none
  | fuel + 1, tree, x =>
    if some x = tree.root then some tree
    else do
      let p ← (tree.nodes x).parent
      if (tree.nodes p).color = .black then return tree
      let g ← (tree.nodes p).parent
      let side : Side := if some p = (tree.nodes g).left then .left else .right
      let (x, tree) ← fixUpAside side tree x p g
      fixUp fuel tree x

def binaryTreeNodeInsert [LinearOrder Key] (fuel : ℕ) (tree : BinaryTree Key) (node : Address) :
    Option (Bool × BinaryTree Key) := do
  let (ok, tree) ← insertNode node fuel tree .root none
  if !ok then return (false, tree)
  let tree ← fixUp fuel tree node
  let root ← tree.root
  return (true, tree.setColor root .black)

/-- `BinaryTreeNodeInit` of a node with a key. -/
def binaryTreeNodeInit (tree : BinaryTree Key) (address : Address) (key : Key) :
    BinaryTree Key :=
  { tree with nodes := Function.update tree.nodes address { key := key } }

/-- `BinaryTreeNodeSearch`. The result is absent when the fuel does not suffice. -/
def binaryTreeNodeSearch [LinearOrder Key] (tree : BinaryTree Key) (key : Key) :
    ℕ → Option Address → Option (Option Address)
  | 0, _ => none
  | _ + 1, none => some none
  | fuel + 1, some node =>
    match compare (tree.nodes node).key key with
    | .eq => some (some node)
    | .gt => binaryTreeNodeSearch tree key fuel (tree.nodes node).left
    | .lt => binaryTreeNodeSearch tree key fuel (tree.nodes node).right

end DaveCC.Container

/-!
## Trees in a store of nodes

A store holds a tree when every node of the tree is at its address, with pointers to its
children and to its parent. A change of one node, and a rotation, are changes of the tree
at one place.
-/

namespace DaveCC.Container

open ColoredTree

variable {Key : Type}

namespace ColoredTree

variable {α : Type}

theorem join_opposite (side : Side) (color : Color) (value : α) (near far : ColoredTree α) :
    join side.opposite color value near far = join side color value far near := by
  cases side <;> rfl

theorem perm_inorder_join (side : Side) (color : Color) (value : α) (near far : ColoredTree α) :
    (join side color value near far).inorder.Perm (value :: (near.inorder ++ far.inorder)) := by
  cases side with
  | left => exact List.perm_middle
  | right =>
    exact List.perm_middle.trans (List.Perm.cons value List.perm_append_comm)

variable {value : α}

theorem mem_inorder_of_rootValue {tree : ColoredTree α} (root : tree.rootValue = some value) :
    value ∈ tree.inorder := by
  cases tree with
  | leaf => cases root
  | node color top left right =>
    cases root
    exact List.mem_append_right _ List.mem_cons_self

/-- A tree with a root, from either side. -/
theorem exists_eq_join {tree : ColoredTree α} (root : tree.rootValue = some value) (side : Side) :
    ∃ color near far, tree = join side color value near far := by
  cases tree with
  | leaf => cases root
  | node color top left right =>
    cases root
    cases side with
    | left => exact ⟨color, left, right, rfl⟩
    | right => exact ⟨color, right, left, rfl⟩

end ColoredTree

def TreePlace.values {α : Type} : TreePlace α → List α
  | [] => []
  | frame :: rest => frame.value :: (frame.sibling.inorder ++ TreePlace.values rest)

theorem TreePlace.perm_inorder_plug {α : Type} (place : TreePlace α) (tree : ColoredTree α) :
    (place.plug tree).inorder.Perm (tree.inorder ++ place.values) := by
  induction place generalizing tree with
  | nil => rw [TreePlace.values, List.append_nil, TreePlace.plug]
  | cons frame rest ih =>
    refine (ih _).trans ?_
    refine ((perm_inorder_join _ _ _ _ _).append_right _).trans ?_
    rw [List.cons_append, List.append_assoc]
    exact List.perm_middle.symm

theorem TreePlace.mem_values_of_parentValue {α : Type} {place : TreePlace α} {value : α}
    (parent : place.parentValue = some value) : value ∈ place.values := by
  cases place with
  | nil => cases parent
  | cons frame rest =>
    cases parent
    exact List.mem_cons_self

/-! ## What a store holds -/

/-- The nodes of a tree are in the store, below a parent. -/
def Holds (nodes : Address → BinaryTreeNode Key) : Option Address → ColoredTree Address → Prop
  | _, .leaf => True
  | parent, .node color address left right =>
    (nodes address).color = color ∧ (nodes address).left = left.rootValue ∧
      (nodes address).right = right.rootValue ∧ (nodes address).parent = parent ∧
      Holds nodes (some address) left ∧ Holds nodes (some address) right

/-- The nodes above a place are in the store, and the pointer at the place is the given
one. -/
def HoldsAbove (nodes : Address → BinaryTreeNode Key) (root : Option Address) :
    TreePlace Address → Option Address → Prop
  | [], pointer => root = pointer
  | frame :: rest, pointer =>
    ((nodes frame.value).color = frame.color ∧ (nodes frame.value).child frame.side = pointer ∧
      (nodes frame.value).child frame.side.opposite = frame.sibling.rootValue ∧
      (nodes frame.value).parent = TreePlace.parentValue rest) ∧
      Holds nodes (some frame.value) frame.sibling ∧
      HoldsAbove nodes root rest (some frame.value)

variable {nodes : Address → BinaryTreeNode Key} {parent : Option Address}

theorem holds_join {side : Side} {color : Color} {address : Address}
    {near far : ColoredTree Address} :
    Holds nodes parent (join side color address near far) ↔
      ((nodes address).color = color ∧ (nodes address).child side = near.rootValue ∧
        (nodes address).child side.opposite = far.rootValue ∧
        (nodes address).parent = parent) ∧
        Holds nodes (some address) near ∧ Holds nodes (some address) far := by
  cases side with
  | left =>
    simp only [join, Holds, BinaryTreeNode.child, Side.opposite, and_assoc]
  | right =>
    simp only [join, Holds, BinaryTreeNode.child, Side.opposite, and_assoc]
    constructor
    · rintro ⟨color, left, right, parent, far, near⟩
      exact ⟨color, right, left, parent, near, far⟩
    · rintro ⟨color, right, left, parent, near, far⟩
      exact ⟨color, left, right, parent, far, near⟩

variable {root : Option Address}

/-- A whole tree in the store, as what is below a place and what is above it. -/
theorem holds_plug {place : TreePlace Address} {subtree : ColoredTree Address} :
    (Holds nodes none (place.plug subtree) ∧ root = (place.plug subtree).rootValue) ↔
      Holds nodes place.parentValue subtree ∧
        HoldsAbove nodes root place subtree.rootValue := by
  induction place generalizing subtree with
  | nil => exact Iff.rfl
  | cons frame rest ih =>
    rw [TreePlace.plug, ih, holds_join, rootValue_join, HoldsAbove]
    constructor
    · rintro ⟨⟨⟨color, near, far, parent⟩, below, sibling⟩, above⟩
      exact ⟨below, ⟨color, near, far, parent⟩, sibling, above⟩
    · rintro ⟨below, ⟨color, near, far, parent⟩, sibling, above⟩
      exact ⟨⟨⟨color, near, far, parent⟩, below, sibling⟩, above⟩

variable {others : Address → BinaryTreeNode Key}

/-- Only the nodes of a tree matter for it. -/
theorem Holds.congr {tree : ColoredTree Address} (holds : Holds nodes parent tree)
    (same : ∀ address ∈ tree.inorder, others address = nodes address) :
    Holds others parent tree := by
  induction tree generalizing parent with
  | leaf => exact trivial
  | node color address left right ihLeft ihRight =>
    obtain ⟨colorEq, leftEq, rightEq, parentEq, holdsLeft, holdsRight⟩ := holds
    rw [Holds, same address (by simp [inorder])]
    refine ⟨colorEq, leftEq, rightEq, parentEq, ihLeft holdsLeft ?_, ihRight holdsRight ?_⟩
    · exact fun other inside => same other (by simp [inorder, inside])
    · exact fun other inside => same other (by simp [inorder, inside])

theorem HoldsAbove.congr {place : TreePlace Address} {pointer : Option Address}
    (above : HoldsAbove nodes root place pointer)
    (same : ∀ address ∈ place.values, others address = nodes address) :
    HoldsAbove others root place pointer := by
  induction place generalizing pointer with
  | nil => exact above
  | cons frame rest ih =>
    obtain ⟨frameEq, sibling, aboveRest⟩ := above
    have inRest : ∀ address ∈ TreePlace.values rest, others address = nodes address :=
      fun address inside => same address (by simp [TreePlace.values, inside])
    have inSibling : ∀ address ∈ frame.sibling.inorder, others address = nodes address :=
      fun address inside => same address (by simp [TreePlace.values, inside])
    rw [HoldsAbove, same frame.value (by simp [TreePlace.values])]
    exact ⟨frameEq, sibling.congr inSibling, ih aboveRest inRest⟩

/-- A subtree whose root gets another parent. -/
theorem Holds.reparent {other : Option Address} {tree : ColoredTree Address}
    (holds : Holds nodes parent tree) (distinct : tree.inorder.Nodup)
    (root : ∀ address, tree.rootValue = some address → others address =
      { nodes address with parent := other })
    (same : ∀ address ∈ tree.inorder, tree.rootValue ≠ some address → others address =
      nodes address) :
    Holds others other tree := by
  cases tree with
  | leaf => exact trivial
  | node color address left right =>
    obtain ⟨colorEq, leftEq, rightEq, -, holdsLeft, holdsRight⟩ := holds
    rw [inorder, List.perm_middle.nodup_iff, List.nodup_cons, List.mem_append, not_or] at distinct
    rw [Holds, root address rfl]
    refine ⟨colorEq, leftEq, rightEq, rfl, holdsLeft.congr ?_, holdsRight.congr ?_⟩
    · intro inner inside
      refine same inner (by simp [inorder, inside]) fun isRoot => ?_
      cases isRoot
      exact distinct.1.1 inside
    · intro inner inside
      refine same inner (by simp [inorder, inside]) fun isRoot => ?_
      cases isRoot
      exact distinct.1.2 inside

section

variable (node : BinaryTreeNode Key) (side : Side) (pointer : Option Address)

include node side pointer

theorem BinaryTreeNode.child_setChild : (node.setChild side pointer).child side = pointer := by
  cases side <;> rfl

theorem BinaryTreeNode.child_setChild_opposite :
    (node.setChild side pointer).child side.opposite = node.child side.opposite := by
  cases side <;> rfl

theorem BinaryTreeNode.child_opposite_setChild :
    (node.setChild side.opposite pointer).child side = node.child side := by
  cases side <;> rfl

@[simp] theorem BinaryTreeNode.color_setChild :
    (node.setChild side pointer).color = node.color := by
  cases side <;> rfl

@[simp] theorem BinaryTreeNode.parent_setChild :
    (node.setChild side pointer).parent = node.parent := by
  cases side <;> rfl

@[simp] theorem BinaryTreeNode.key_setChild : (node.setChild side pointer).key = node.key := by
  cases side <;> rfl

end

open BinaryTreeNode

/-- The pointer at a place changes: the nearest node above it gets another child, or the
tree another root. -/
theorem HoldsAbove.replace {nodes others : Address → BinaryTreeNode Key}
    {root otherRoot : Option Address} {place : TreePlace Address} {pointer other : Option Address}
    (above : HoldsAbove nodes root place pointer) (distinct : place.values.Nodup) (top : ∀ frame ∈
      place.head?, others frame.value = (nodes frame.value).setChild frame.side other)
    (rootEq : otherRoot = if place = [] then other else root) (same : ∀ address ∈ place.values,
      place.parentValue ≠ some address → others address = nodes address) :
    HoldsAbove others otherRoot place other := by
  cases place with
  | nil => exact rootEq
  | cons frame rest =>
    obtain ⟨⟨colorEq, childEq, siblingEq, parentEq⟩, sibling, aboveRest⟩ := above
    rw [TreePlace.values, List.nodup_cons, List.mem_append, not_or] at distinct
    rw [HoldsAbove, top frame rfl, rootEq, if_neg (List.cons_ne_nil _ _)]
    refine ⟨⟨?_, child_setChild _ _ _, ?_, ?_⟩, sibling.congr ?_, aboveRest.congr ?_⟩
    · rw [color_setChild, colorEq]
    · rw [child_setChild_opposite, siblingEq]
    · rw [parent_setChild, parentEq]
    · intro address inside
      refine same address (by simp [TreePlace.values, inside]) fun isTop => ?_
      cases isTop
      exact distinct.1.1 inside
    · intro address inside
      refine same address (by simp [TreePlace.values, inside]) fun isTop => ?_
      cases isTop
      exact distinct.1.2 inside

theorem TreePlace.parentValue_eq_none_iff {α : Type} {place : TreePlace α} :
    place.parentValue = none ↔ place = [] := by
  rw [parentValue, Option.map_eq_none_iff, List.head?_eq_none_iff]

variable {x : Address}

/-- The source finds the side of a node by comparing it with the left child of its
parent. -/
theorem HoldsAbove.side_eq {place : TreePlace Address}
    (above : HoldsAbove nodes root place (some x)) {frame : TreeFrame Address}
    (isTop : frame ∈ place.head?) (apart : x ∉ place.values) :
    (if some x = (nodes frame.value).left then Side.left else Side.right) = frame.side := by
  cases place with
  | nil => cases isTop
  | cons top rest =>
    cases isTop
    obtain ⟨⟨-, childEq, siblingEq, -⟩, -, -⟩ := above
    cases side : frame.side with
    | left =>
      rw [side] at childEq
      exact if_pos childEq.symm
    | right =>
      rw [side] at siblingEq
      apply if_neg
      intro isLeft
      apply apart
      have inside := mem_inorder_of_rootValue (siblingEq.symm.trans isLeft.symm)
      exact List.mem_cons_of_mem _ (List.mem_append_left _ inside)

/-! ## Linked trees -/

/-- The store of a tree holds an abstract one, from the root on, at distinct addresses. -/
structure Linked (tree : BinaryTree Key) (shape : ColoredTree Address) : Prop where
  holds : Holds tree.nodes none shape
  root : tree.root = shape.rootValue
  distinct : shape.inorder.Nodup

namespace Linked

variable {tree : BinaryTree Key} {place : TreePlace Address} {subtree : ColoredTree Address}

theorem focus (linked : Linked tree (place.plug subtree)) :
    Holds tree.nodes place.parentValue subtree ∧
      HoldsAbove tree.nodes tree.root place subtree.rootValue ∧
      (subtree.inorder ++ place.values).Nodup := by
  have ⟨below, above⟩ := holds_plug.mp ⟨linked.holds, linked.root⟩
  exact ⟨below, above, (place.perm_inorder_plug subtree).nodup_iff.mp linked.distinct⟩

theorem unfocus (below : Holds tree.nodes place.parentValue subtree)
    (above : HoldsAbove tree.nodes tree.root place subtree.rootValue)
    (distinct : (subtree.inorder ++ place.values).Nodup) : Linked tree (place.plug subtree) := by
  have ⟨holds, rootEq⟩ := holds_plug.mpr ⟨below, above⟩
  exact ⟨holds, rootEq, (place.perm_inorder_plug subtree).nodup_iff.mpr distinct⟩

/-- Recolouring a node. -/
theorem setColor {side : Side} {color : Color} {address : Address} {near far : ColoredTree Address}
    (linked : Linked tree (place.plug (join side color address near far))) (other : Color) :
    Linked (tree.setColor address other) (place.plug (join side other address near far)) := by
  obtain ⟨below, above, distinct⟩ := linked.focus
  obtain ⟨⟨-, nearEq, farEq, parentEq⟩, holdsNear, holdsFar⟩ := holds_join.mp below
  have apart := ((perm_inorder_join _ _ _ _ _).append_right _).nodup_iff.mp distinct
  rw [List.cons_append, List.nodup_cons, List.mem_append, List.mem_append, not_or, not_or] at apart
  obtain ⟨⟨⟨notNear, notFar⟩, notAbove⟩, -⟩ := apart
  have kept : ∀ other', other' ≠ address →
      (tree.setColor address other).nodes other' = tree.nodes other' :=
    fun other' ne => Function.update_of_ne ne _ _
  have written : (tree.setColor address other).nodes address =
      { tree.nodes address with color := other } := Function.update_self ..
  apply unfocus
  · rw [holds_join]
    refine ⟨?_, holdsNear.congr ?_, holdsFar.congr ?_⟩
    · rw [written]
      refine ⟨rfl, ?_, ?_, parentEq⟩
      · rw [← nearEq]
        cases side <;> rfl
      · rw [← farEq]
        cases side <;> rfl
    · exact fun inner inside => kept inner (ne_of_mem_of_not_mem inside notNear)
    · exact fun inner inside => kept inner (ne_of_mem_of_not_mem inside notFar)
  · rw [rootValue_join] at above ⊢
    exact above.congr fun inner inside => kept inner (ne_of_mem_of_not_mem inside notAbove)
  · exact ((perm_inorder_join _ _ _ _ _).append_right _).nodup_iff.mpr
      (((perm_inorder_join _ _ _ _ _).append_right _).nodup_iff.mp distinct)

end Linked

namespace BinaryTree

variable (tree : BinaryTree Key)

theorem nodes_modify (address other : Address) (change : BinaryTreeNode Key → BinaryTreeNode Key) :
    (tree.modify address change).nodes other =
      if other = address then change (tree.nodes other) else tree.nodes other := by
  simp only [modify, Function.update_apply]
  split
  next same => rw [same]
  next => rfl

theorem nodes_setChild (address other : Address) (side : Side) (pointer : Option Address) :
    (tree.setChild address side pointer).nodes other =
      if other = address then (tree.nodes other).setChild side pointer else tree.nodes other := by
  rw [setChild, nodes_modify]

theorem nodes_setParent (address other : Address) (parent : Option Address) :
    (tree.setParent address parent).nodes other =
      if other = address then { tree.nodes other with parent := parent }
      else tree.nodes other := by
  rw [setParent, nodes_modify]

theorem nodes_setParentOf (pointer : Option Address) (other : Address) (parent : Option Address) :
    (tree.setParentOf pointer parent).nodes other =
      if pointer = some other then { tree.nodes other with parent := parent }
      else tree.nodes other := by
  cases pointer with
  | none => rfl
  | some address =>
    simp only [setParentOf, nodes_setParent, Option.some.injEq, eq_comm (a := other)]

theorem nodes_replaceChild (parent : Option Address) (x y other : Address) :
    (tree.replaceChild parent x y).nodes other =
      if parent = some other then
        (tree.nodes other).setChild (if some x = (tree.nodes other).left then .left else .right)
          (some y)
      else tree.nodes other := by
  cases parent with
  | none => rfl
  | some address =>
    rcases eq_or_ne address other with rfl | ne
    · simp only [replaceChild]
      split <;> simp only [nodes_setChild, if_true]
    · rw [if_neg (by simpa using ne), replaceChild]
      split <;> rw [nodes_setChild, if_neg ne.symm]

@[simp] theorem root_setChild (address : Address) (side : Side) (pointer : Option Address) :
    (tree.setChild address side pointer).root = tree.root := rfl

@[simp] theorem root_setParent (address : Address) (parent : Option Address) :
    (tree.setParent address parent).root = tree.root := rfl

@[simp] theorem root_setParentOf (pointer parent : Option Address) :
    (tree.setParentOf pointer parent).root = tree.root := by
  cases pointer <;> rfl

@[simp] theorem root_replaceChild (parent : Option Address) (x y : Address) :
    (tree.replaceChild parent x y).root = if parent = none then some y else tree.root := by
  cases parent with
  | none => rfl
  | some address =>
    rw [replaceChild]
    split <;> rfl

end BinaryTree

/-- What a rotation around `x` writes, with `y` in its place. -/
structure Rotates (side : Side) (x y : Address) (tree rotated : BinaryTree Key) : Prop where
  around : rotated.nodes x =
    { (tree.nodes x).setChild side.opposite ((tree.nodes y).child side) with parent := some y }
  risen : rotated.nodes y =
    { (tree.nodes y).setChild side (some x) with parent := (tree.nodes x).parent }
  inner : ∀ address, (tree.nodes y).child side = some address →
    rotated.nodes address = { tree.nodes address with parent := some x }
  above : ∀ address, (tree.nodes x).parent = some address →
    rotated.nodes address = (tree.nodes address).setChild
      (if some x = (tree.nodes address).left then .left else .right) (some y)
  root : rotated.root = if (tree.nodes x).parent = none then some y else tree.root
  others : ∀ address, address ≠ x → address ≠ y → (tree.nodes y).child side ≠ some address →
    (tree.nodes x).parent ≠ some address → rotated.nodes address = tree.nodes address
  keys : ∀ address, (rotated.nodes address).key = (tree.nodes address).key

variable {y : Address}

open BinaryTree

theorem exists_rotate {side : Side} {tree : BinaryTree Key}
    (down : (tree.nodes x).child side.opposite = some y) (apart : x ≠ y) (innerApart : ∀ address,
      (tree.nodes y).child side = some address → address ≠ x ∧ address ≠ y ∧ (tree.nodes x).parent ≠
      some address)
    (aboveApart : ∀ address, (tree.nodes x).parent = some address → address ≠ x ∧ address ≠ y) :
    ∃ rotated, rotate side tree x = some rotated ∧ Rotates side x y tree rotated := by
  have innerX : (tree.nodes y).child side ≠ some x := fun isX => (innerApart x isX).1 rfl
  have innerY : (tree.nodes y).child side ≠ some y := fun isY => (innerApart y isY).2.1 rfl
  have parentX : (tree.nodes x).parent ≠ some x := fun isX => (aboveApart x isX).1 rfl
  have parentY : (tree.nodes x).parent ≠ some y := fun isY => (aboveApart y isY).2 rfl
  refine ⟨_, by rw [rotate, down]; rfl, ?_⟩
  constructor
  · simp only [nodes_setParent, nodes_setChild, nodes_replaceChild, nodes_setParentOf, apart,
      innerX, parentX, parent_setChild, if_true, if_false]
  · simp only [nodes_setParent, nodes_setChild, nodes_replaceChild, nodes_setParentOf, apart,
      apart.symm, innerX, innerY, parentX, parentY, parent_setChild, if_true, if_false]
    cases side <;> rfl
  · intro address isInner
    obtain ⟨neX, neY, notParent⟩ := innerApart address isInner
    simp [nodes_setParent, nodes_setChild, nodes_replaceChild, nodes_setParentOf, apart, isInner, innerX, parentX, notParent, neX, neY, parent_setChild]
  · intro address isParent
    obtain ⟨neX, neY⟩ := aboveApart address isParent
    have notInner : (tree.nodes y).child side ≠ some address :=
      fun isInner => (innerApart address isInner).2.2 isParent
    simp [nodes_setParent, nodes_setChild, nodes_replaceChild, nodes_setParentOf, apart, notInner, innerX, isParent, neX, neY, parent_setChild]
  · simp only [root_setParent, root_setChild, root_replaceChild, root_setParentOf, nodes_setParent,
      nodes_setChild, nodes_setParentOf, apart, innerX, parent_setChild, if_true, if_false]
  · intro address neX neY notInner notParent
    simp [nodes_setParent, nodes_setChild, nodes_replaceChild, nodes_setParentOf, apart, notInner, innerX, notParent, neX, neY, parent_setChild]
  · intro address
    simp only [nodes_setParent, nodes_setChild, nodes_replaceChild, nodes_setParentOf]
    split_ifs <;> simp only [key_setChild]

/-- The addresses around a rotation, before and after it. -/
theorem perm_inorder_rotated {side : Side} {colorX colorY : Color} {x y : Address}
    (outer inner far : ColoredTree Address) :
    (join side colorX x outer (join side colorY y inner far)).inorder.Perm
        (x :: y :: (outer.inorder ++ (inner.inorder ++ far.inorder))) ∧
      (join side colorY y (join side colorX x outer inner) far).inorder.Perm
        (x :: y :: (outer.inorder ++ (inner.inorder ++ far.inorder))) := by
  constructor
  · refine (perm_inorder_join _ _ _ _ _).trans (List.Perm.cons x ?_)
    exact ((perm_inorder_join _ _ _ _ _).append_left _).trans List.perm_middle
  · refine (perm_inorder_join _ _ _ _ _).trans (List.Perm.trans ?_ (List.Perm.swap x y _))
    refine List.Perm.cons y (((perm_inorder_join _ _ _ _ _).append_right _).trans ?_)
    rw [List.cons_append, List.append_assoc]

/-- A rotation of the tree in the store is a rotation at the place. -/
theorem Linked.exists_rotate {tree : BinaryTree Key} {place : TreePlace Address} {side : Side}
    {colorX colorY : Color} {outer inner far : ColoredTree Address}
    (linked : Linked tree (place.plug (join side colorX x outer (join side colorY y inner far)))) :
    ∃ rotated, rotate side tree x = some rotated ∧
      Linked rotated (place.plug (join side colorY y (join side colorX x outer inner) far)) ∧
      ∀ address, (rotated.nodes address).key = (tree.nodes address).key := by
  obtain ⟨below, above, distinct⟩ := linked.focus
  obtain ⟨⟨colorXEq, outerEq, downEq, parentEq⟩, holdsOuter, belowY⟩ := holds_join.mp below
  obtain ⟨⟨colorYEq, innerEq, farEq, -⟩, holdsInner, holdsFar⟩ := holds_join.mp belowY
  have ⟨permBefore, permAfter⟩ := @perm_inorder_rotated side colorX colorY x y outer inner far
  have apart := (permBefore.append_right place.values).nodup_iff.mp distinct
  simp only [List.cons_append, List.append_assoc, List.nodup_cons, List.mem_cons,
    List.mem_append, not_or, List.nodup_append] at apart
  obtain ⟨⟨neXY, xOuter, xInner, xFar, xAbove⟩, ⟨yOuter, yInner, yFar, yAbove⟩, -,
    ⟨innerDistinct, ⟨-, aboveDistinct, farAbove⟩, innerRest⟩, outerRest⟩ := apart
  rw [rootValue_join] at downEq above
  have insideInner : ∀ address, (tree.nodes y).child side = some address →
      address ∈ inner.inorder := by
    intro address isInner
    exact mem_inorder_of_rootValue (innerEq ▸ isInner)
  have insideAbove : ∀ address, (tree.nodes x).parent = some address →
      address ∈ place.values := by
    intro address isParent
    exact place.mem_values_of_parentValue (parentEq ▸ isParent)
  obtain ⟨rotated, rotates, writes⟩ := DaveCC.Container.exists_rotate downEq neXY
    (fun address isInner => by
      have inside := insideInner address isInner
      refine ⟨ne_of_mem_of_not_mem inside xInner, ne_of_mem_of_not_mem inside yInner, ?_⟩
      exact fun isParent => innerRest address inside address (.inr (insideAbove _ isParent)) rfl)
    (fun address isParent =>
      ⟨ne_of_mem_of_not_mem (insideAbove _ isParent) xAbove,
        ne_of_mem_of_not_mem (insideAbove _ isParent) yAbove⟩)
  have keptOuter : ∀ address ∈ outer.inorder, rotated.nodes address = tree.nodes address := by
    intro address inside
    apply writes.others address (ne_of_mem_of_not_mem inside xOuter)
      (ne_of_mem_of_not_mem inside yOuter)
    · exact fun isInner =>
        outerRest address inside address (.inl (insideInner _ isInner)) rfl
    · exact fun isParent =>
        outerRest address inside address (.inr (.inr (insideAbove _ isParent))) rfl
  have keptFar : ∀ address ∈ far.inorder, rotated.nodes address = tree.nodes address := by
    intro address inside
    apply writes.others address (ne_of_mem_of_not_mem inside xFar)
      (ne_of_mem_of_not_mem inside yFar)
    · exact fun isInner => innerRest _ (insideInner _ isInner) address (.inl inside) rfl
    · exact fun isParent => farAbove address inside address (insideAbove _ isParent) rfl
  refine ⟨rotated, rotates, Linked.unfocus ?_ ?_ ?_, writes.keys⟩
  · rw [holds_join, holds_join, writes.risen, writes.around]
    refine ⟨⟨?_, ?_, ?_, parentEq⟩, ⟨⟨?_, ?_, ?_, rfl⟩, holdsOuter.congr keptOuter, ?_⟩,
      holdsFar.congr keptFar⟩
    · simpa using colorYEq
    · rw [rootValue_join]
      exact child_setChild ..
    · rw [← farEq]
      exact child_setChild_opposite ..
    · simpa using colorXEq
    · rw [← outerEq]
      exact child_opposite_setChild ..
    · rw [← innerEq]
      exact child_setChild ..
    · apply holdsInner.reparent innerDistinct
      · exact fun address isRoot => writes.inner address (innerEq.trans isRoot)
      · intro address inside notRoot
        apply writes.others address (ne_of_mem_of_not_mem inside xInner)
          (ne_of_mem_of_not_mem inside yInner)
        · exact fun isInner => notRoot (innerEq ▸ isInner)
        · exact fun isParent =>
            innerRest address inside address (.inr (insideAbove _ isParent)) rfl
  · rw [rootValue_join]
    apply above.replace aboveDistinct
    · intro frame isTop
      have isParent : (tree.nodes x).parent = some frame.value := by
        rw [parentEq, TreePlace.parentValue, Option.mem_def.mp isTop, Option.map_some]
      rw [writes.above frame.value isParent, above.side_eq isTop xAbove]
    · rw [writes.root, parentEq]
      exact if_congr TreePlace.parentValue_eq_none_iff rfl rfl
    · intro address inside notParent
      apply writes.others address (ne_of_mem_of_not_mem inside xAbove)
        (ne_of_mem_of_not_mem inside yAbove)
      · exact fun isInner => innerRest _ (insideInner _ isInner) address (.inr inside) rfl
      · exact fun isParent => notParent (parentEq ▸ isParent)
  · exact (permAfter.append_right _).nodup_iff.mpr ((permBefore.append_right _).nodup_iff.mp distinct)

end DaveCC.Container
