import Mathlib.Data.List.Basic

/-!
# Red-black trees and places in them

Trees with coloured nodes, and a place in a tree as the list of the nodes above it. The
two sides of a node are treated alike. The properties of a red-black tree are stated for
a subtree and, separately, for what is above it, so that they can be carried to the place
where one of them fails.
-/

namespace DaveCC.Container

universe u

variable {α : Type u}

inductive Side where
  | left | right
  deriving DecidableEq, Repr

def Side.opposite : Side → Side
  | left => right
  | right => left

theorem Side.eq_opposite_of_ne {side other : Side} (ne : other ≠ side) : other = side.opposite := by
  cases side <;> cases other <;> first | rfl | exact absurd rfl ne

inductive Color where
  | red | black
  deriving DecidableEq, Repr

/-- A binary tree with coloured nodes. -/
inductive ColoredTree (α : Type u) where
  | leaf
  | node (color : Color) (value : α) (left right : ColoredTree α)
  deriving Repr

namespace ColoredTree

/-- A node with one subtree on the given side and another on the opposite one. -/
def join (side : Side) (color : Color) (value : α) (near far : ColoredTree α) : ColoredTree α :=
  match side with
  | .left => node color value near far
  | .right => node color value far near

/-- The values in order. -/
def inorder : ColoredTree α → List α
  | leaf => []
  | node _ value left right => left.inorder ++ value :: right.inorder

/-- The values on one side of another, in order. -/
def aside (side : Side) (value : α) (far : ColoredTree α) : List α × List α :=
  match side with
  | .left => ([], value :: far.inorder)
  | .right => (far.inorder ++ [value], [])

theorem inorder_join (side : Side) (color : Color) (value : α) (near far : ColoredTree α) :
    (join side color value near far).inorder =
      (aside side value far).1 ++ near.inorder ++ (aside side value far).2 := by
  cases side <;> simp [join, aside, inorder]

/-- The colour of the root. A tree without nodes counts as black. -/
def rootColor : ColoredTree α → Color
  | leaf => .black
  | node color .. => color

@[simp] theorem rootColor_join (side : Side) (color : Color) (value : α)
    (near far : ColoredTree α) : (join side color value near far).rootColor = color := by
  cases side <;> rfl

def rootValue : ColoredTree α → Option α
  | leaf => none
  | node _ value .. => some value

@[simp] theorem rootValue_join (side : Side) (color : Color) (value : α)
    (near far : ColoredTree α) : (join side color value near far).rootValue = some value := by
  cases side <;> rfl

/-- Give the root another colour. -/
def recolor (color : Color) : ColoredTree α → ColoredTree α
  | leaf => leaf
  | node _ value left right => node color value left right

/-! ## The properties of a red-black tree -/

/-- No red node has a red child. -/
def NoRedRed : ColoredTree α → Prop
  | leaf => True
  | node color _ left right =>
    (color = .red → left.rootColor = .black ∧ right.rootColor = .black) ∧
      left.NoRedRed ∧ right.NoRedRed

theorem noRedRed_join {side : Side} {color : Color} {value : α} {near far : ColoredTree α} :
    (join side color value near far).NoRedRed ↔
      (color = .red → near.rootColor = .black ∧ far.rootColor = .black) ∧
        near.NoRedRed ∧ far.NoRedRed := by
  cases side with
  | left => exact Iff.rfl
  | right =>
    rw [join, NoRedRed, and_comm (a := far.rootColor = .black), and_comm (a := far.NoRedRed)]

/-- How a colour counts for the height. -/
def blackCount : Color → ℕ
  | .red => 0
  | .black => 1

/-- The number of black nodes on each path from the root to a leaf. -/
def pathCounts : ColoredTree α → List ℕ
  | leaf => [0]
  | node color _ left right =>
    (left.pathCounts ++ right.pathCounts).map (blackCount color + ·)

/-- Every path from the root to a leaf has the same number of black nodes. -/
def Balanced (tree : ColoredTree α) (height : ℕ) : Prop :=
  ∀ count ∈ tree.pathCounts, count = height

variable {height : ℕ}

theorem balanced_leaf_iff : (leaf : ColoredTree α).Balanced height ↔ height = 0 := by
  simp [Balanced, pathCounts, eq_comm]

theorem pathCounts_ne_nil (tree : ColoredTree α) : tree.pathCounts ≠ [] := by
  induction tree with
  | leaf => simp [pathCounts]
  | node color value left right ihLeft => simp [pathCounts, ihLeft]

theorem balanced_join {side : Side} {color : Color} {value : α} {near far : ColoredTree α}
    {height : ℕ} : (join side color value near far).Balanced height ↔
      ∃ lower, near.Balanced lower ∧ far.Balanced lower ∧ height = blackCount color + lower := by
  have both : (join side color value near far).Balanced height ↔
      ∀ count, count ∈ near.pathCounts ∨ count ∈ far.pathCounts →
        blackCount color + count = height := by
    cases side with
    | left =>
      rw [Balanced, join, pathCounts, List.forall_mem_map]
      exact forall_congr' fun count => by rw [List.mem_append]
    | right =>
      rw [Balanced, join, pathCounts, List.forall_mem_map]
      exact forall_congr' fun count => by rw [List.mem_append, or_comm]
  rw [both]
  constructor
  · intro same
    obtain ⟨lower, inside⟩ := List.exists_mem_of_ne_nil _ near.pathCounts_ne_nil
    have total := same lower (.inl inside)
    refine ⟨lower, fun count inNear => ?_, fun count inFar => ?_, total.symm⟩
    · have := same count (.inl inNear)
      omega
    · have := same count (.inr inFar)
      omega
  · rintro ⟨lower, balancedNear, balancedFar, rfl⟩ count inside
    rcases inside with inNear | inFar
    · rw [balancedNear count inNear]
    · rw [balancedFar count inFar]

variable {tree : ColoredTree α}

theorem noRedRed_recolor_black (legal : tree.NoRedRed) : (tree.recolor .black).NoRedRed := by
  cases tree with
  | leaf => exact trivial
  | node color value left right =>
    exact ⟨fun impossible => Color.noConfusion impossible, legal.2⟩

theorem exists_balanced_recolor (balanced : tree.Balanced height) (color : Color) :
    ∃ other, (tree.recolor color).Balanced other := by
  cases tree with
  | leaf => exact ⟨height, balanced⟩
  | node old value left right =>
    obtain ⟨lower, balancedLeft, balancedRight, -⟩ :=
      (@balanced_join α .left _ _ _ _ _).mp balanced
    exact ⟨_, (@balanced_join α .left _ _ _ _ _).mpr ⟨lower, balancedLeft, balancedRight, rfl⟩⟩

@[simp] theorem inorder_recolor (color : Color) (tree : ColoredTree α) :
    (tree.recolor color).inorder = tree.inorder := by
  cases tree <;> rfl

end ColoredTree

open ColoredTree

/-- A node above a place, with the side of the place and what is on the opposite one. -/
structure TreeFrame (α : Type u) where
  side : Side
  color : Color
  value : α
  sibling : ColoredTree α

/-- A place in a tree: the nodes above it, the nearest one first. -/
abbrev TreePlace (α : Type u) := List (TreeFrame α)

namespace TreePlace

/-- The tree with a subtree at a place. -/
def plug : TreePlace α → ColoredTree α → ColoredTree α
  | [], tree => tree
  | frame :: rest, tree => plug rest (join frame.side frame.color frame.value tree frame.sibling)

/-- The values before the place. -/
def before : TreePlace α → List α
  | [] => []
  | frame :: rest => before rest ++ (aside frame.side frame.value frame.sibling).1

/-- The values after the place. -/
def after : TreePlace α → List α
  | [] => []
  | frame :: rest => (aside frame.side frame.value frame.sibling).2 ++ after rest

theorem inorder_plug (place : TreePlace α) (tree : ColoredTree α) :
    (place.plug tree).inorder = before place ++ tree.inorder ++ after place := by
  induction place generalizing tree with
  | nil => simp [plug, before, after]
  | cons frame rest ih =>
    rw [plug, ih, inorder_join, before, after]
    simp

/-- The value of the node above the place. -/
def parentValue (place : TreePlace α) : Option α :=
  place.head?.map TreeFrame.value

/-- A black node is right above the place. -/
def BelowBlack (place : TreePlace α) : Prop :=
  ∃ frame ∈ place.head?, frame.color = .black

/-- What is above the place has no red node with a red child, and its root is black. -/
def Legal : TreePlace α → Prop
  | [] => True
  | frame :: rest =>
    frame.sibling.NoRedRed ∧
      (frame.color = .red → frame.sibling.rootColor = .black ∧ BelowBlack rest) ∧ Legal rest

/-- A tree of the height at the place makes the whole tree balanced. -/
def Balanced : TreePlace α → ℕ → Prop
  | [], _ => True
  | frame :: rest, height =>
    frame.sibling.Balanced height ∧ Balanced rest (blackCount frame.color + height)

variable {place : TreePlace α}

theorem noRedRed_plug {tree : ColoredTree α} (legal : place.Legal) (subtree : tree.NoRedRed)
    (meets : tree.rootColor = .red → place = [] ∨ place.BelowBlack) :
    (place.plug tree).NoRedRed := by
  induction place generalizing tree with
  | nil => exact subtree
  | cons frame rest ih =>
    obtain ⟨legalSibling, legalFrame, legalRest⟩ := legal
    apply ih legalRest
    · refine noRedRed_join.mpr ⟨fun isRed => ⟨?_, (legalFrame isRed).1⟩, subtree, legalSibling⟩
      cases root : tree.rootColor with
      | black => rfl
      | red =>
        rcases meets root with empty | ⟨top, isTop, isBlack⟩
        · cases empty
        · cases isTop
          rw [isRed] at isBlack
          cases isBlack
    · rw [rootColor_join]
      exact fun isRed => .inr (legalFrame isRed).2

theorem exists_balanced_plug {tree : ColoredTree α} {height : ℕ} (above : Balanced place height)
    (subtree : tree.Balanced height) : ∃ total, (place.plug tree).Balanced total := by
  induction place generalizing tree height with
  | nil => exact ⟨height, subtree⟩
  | cons frame rest ih =>
    exact ih above.2 (balanced_join.mpr ⟨height, subtree, above.1, rfl⟩)

end TreePlace

end DaveCC.Container
