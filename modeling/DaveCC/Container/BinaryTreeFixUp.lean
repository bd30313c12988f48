import DaveCC.Container.BinaryTree

/-!
# The fix-up after an insertion

The loop that goes up from the inserted node. Below the place where it stands and above
it the tree is a red-black tree, the node at the place is red, and only its parent may be
red as well. A step ends the fix-up or goes up two levels, and keeps the order.
-/

namespace DaveCC.Container

open ColoredTree TreePlace

namespace ColoredTree

variable {α : Type}

theorem rootColor_recolor {tree : ColoredTree α} {value : α} (root : tree.rootValue = some value)
    (color : Color) : (tree.recolor color).rootColor = color := by
  cases tree with
  | leaf => cases root
  | node => rfl

theorem balanced_recolor_black {tree : ColoredTree α} {height : ℕ} (isRed : tree.rootColor = .red)
    (balanced : tree.Balanced height) : (tree.recolor .black).Balanced (1 + height) := by
  cases tree with
  | leaf => cases isRed
  | node color value left right =>
    cases isRed
    obtain ⟨lower, balancedLeft, balancedRight, rfl⟩ :=
      (@balanced_join α .left _ _ _ _ _).mp balanced
    refine (@balanced_join α .left _ _ _ _ _).mpr ⟨lower, balancedLeft, balancedRight, ?_⟩
    simp [blackCount]

end ColoredTree

/-- A red-black tree but for a red node at a place whose parent may be red. -/
structure AlmostRedBlack (place : TreePlace Address) (subtree : ColoredTree Address) (x : Address)
    (height : ℕ) : Prop where
  root : subtree.rootValue = some x
  isRed : subtree.rootColor = .red
  legal : place.Legal
  subtreeLegal : subtree.NoRedRed
  balancedAbove : TreePlace.Balanced place height
  balanced : subtree.Balanced height

namespace AlmostRedBlack

variable {parent grandparent : TreeFrame Address} {rest : TreePlace Address}
  {subtree : ColoredTree Address} {x : Address} {height : ℕ}

/-- The parent and the aunt are red: they become black and the grandparent red. -/
theorem recolored (almost : AlmostRedBlack (parent :: grandparent :: rest) subtree x height)
    (auntRed : grandparent.sibling.rootColor = .red) (grandparentBlack : grandparent.color = .black)
    (parentRed : parent.color = .red) :
    AlmostRedBlack rest (join grandparent.side .red grandparent.value
      (join parent.side .black parent.value subtree parent.sibling)
      (grandparent.sibling.recolor .black)) grandparent.value (1 + height) := by
  obtain ⟨-, -, ⟨legalSibling, -, legalAunt, -, legalRest⟩, legalSubtree,
    ⟨balancedSibling, balancedAunt, balancedRest⟩, balanced⟩ := almost
  rw [parentRed, blackCount, Nat.zero_add] at balancedAunt balancedRest
  rw [grandparentBlack, blackCount] at balancedRest
  have auntBlack : (grandparent.sibling.recolor .black).rootColor = .black := by
    cases aunt : grandparent.sibling with
    | leaf => rfl
    | node => rfl
  refine ⟨rootValue_join .., rootColor_join .., legalRest, ?_, balancedRest, ?_⟩
  · rw [noRedRed_join, noRedRed_join]
    refine ⟨fun _ => ⟨rootColor_join .., auntBlack⟩, ⟨?_, legalSubtree, legalSibling⟩,
      noRedRed_recolor_black legalAunt⟩
    exact fun impossible => Color.noConfusion impossible
  · refine balanced_join.mpr ⟨1 + height, ?_, balanced_recolor_black auntRed balancedAunt, ?_⟩
    · exact balanced_join.mpr ⟨height, balanced, balancedSibling, rfl⟩
    · rw [blackCount, Nat.zero_add]

/-- The aunt is black: a red node on the outer side of a red parent rises with it. -/
theorem restructured {side : Side} {outer inner aunt : ColoredTree Address}
    {g p : Address} (legalRest : rest.Legal) (balancedRest : TreePlace.Balanced rest (1 + height))
    (root : outer.rootValue = some x) (isRed : outer.rootColor = .red) (legalOuter : outer.NoRedRed)
    (legalInner : inner.NoRedRed) (legalAunt : aunt.NoRedRed) (innerBlack : inner.rootColor = .black)
    (auntBlack : aunt.rootColor = .black) (balancedOuter : outer.Balanced height)
    (balancedInner : inner.Balanced height) (balancedAunt : aunt.Balanced height) :
    AlmostRedBlack (⟨side, .black, p, join side .red g inner aunt⟩ :: rest) outer x height := by
  refine ⟨root, isRed, ⟨?_, ?_, legalRest⟩, legalOuter, ⟨?_, balancedRest⟩, balancedOuter⟩
  · exact noRedRed_join.mpr ⟨fun _ => ⟨innerBlack, auntBlack⟩, legalInner, legalAunt⟩
  · exact fun impossible => Color.noConfusion impossible
  · exact balanced_join.mpr ⟨height, balancedInner, balancedAunt, by simp [blackCount]⟩

end AlmostRedBlack

/-! ## The steps in the store -/

variable {Key : Type}

namespace Linked

variable {tree : BinaryTree Key} {place : TreePlace Address} {subtree : ColoredTree Address}

/-- The parent pointer of the root of a subtree. -/
theorem parent_eq (linked : Linked tree (place.plug subtree)) {x : Address}
    (root : subtree.rootValue = some x) : (tree.nodes x).parent = place.parentValue := by
  obtain ⟨color, near, far, rfl⟩ := exists_eq_join root .left
  exact (holds_join.mp linked.focus.1).1.2.2.2

theorem color_eq (linked : Linked tree (place.plug subtree)) {x : Address}
    (root : subtree.rootValue = some x) : (tree.nodes x).color = subtree.rootColor := by
  obtain ⟨color, near, far, rfl⟩ := exists_eq_join root .left
  exact (holds_join.mp linked.focus.1).1.1

theorem child_eq {side : Side} {color : Color} {x : Address} {near far : ColoredTree Address}
    (linked : Linked tree (place.plug (join side color x near far))) :
    (tree.nodes x).child side = near.rootValue ∧
      (tree.nodes x).child side.opposite = far.rootValue := by
  obtain ⟨-, nearEq, farEq, -⟩ := (holds_join.mp linked.focus.1).1
  exact ⟨nearEq, farEq⟩

/-- The root of a subtree below some place is not the root of the tree. -/
theorem root_ne {frame : TreeFrame Address} (linked : Linked tree (TreePlace.plug (frame :: place) subtree))
    {x : Address} (root : subtree.rootValue = some x) : some x ≠ tree.root := by
  intro isRoot
  have ⟨_, above, distinct⟩ := linked.focus
  have inside : ∀ {nodes : Address → BinaryTreeNode Key} {root : Option Address}
      {place : TreePlace Address} {pointer : Option Address} {frame : TreeFrame Address},
      HoldsAbove nodes root (frame :: place) pointer →
      ∃ top ∈ TreePlace.values (frame :: place), root = some top := by
    intro nodes root place
    induction place with
    | nil =>
      intro pointer frame above
      exact ⟨frame.value, List.mem_cons_self, above.2.2⟩
    | cons next rest ih =>
      intro pointer frame above
      obtain ⟨top, inRest, rootEq⟩ := ih above.2.2
      exact ⟨top, List.mem_cons_of_mem _ (List.mem_append_right _ inRest), rootEq⟩
  obtain ⟨top, inAbove, rootEq⟩ := inside above
  rw [rootEq] at isRoot
  cases isRoot
  rw [List.nodup_append] at distinct
  exact distinct.2.2 x (mem_inorder_of_rootValue root) x inAbove rfl

/-- Raising a red parent on a side of a black grandparent. -/
theorem exists_raiseParent {side : Side} {x p g : Address}
    {outer inner aunt : ColoredTree Address} (root : outer.rootValue = some x)
    (linked : Linked tree (place.plug (join side .black g (join side .red p outer inner) aunt))) :
    ∃ raised, raiseParent side tree x = some (x, raised) ∧
      Linked raised (place.plug (join side .black p outer (join side .red g inner aunt))) ∧
      ∀ address, (raised.nodes address).key = (tree.nodes address).key := by
  have below : Linked tree (TreePlace.plug (⟨side, .black, g, aunt⟩ :: place)
    (join side .red p outer inner)) := linked
  have belowParent : Linked tree (TreePlace.plug (⟨side, .red, p, inner⟩ ::
    ⟨side, .black, g, aunt⟩ :: place) outer) := linked
  have parentEq : (tree.nodes x).parent = some p := belowParent.parent_eq root
  have blackened := below.setColor .black
  have grandparentEq : ((tree.setColor p .black).nodes p).parent = some g :=
    blackened.parent_eq (rootValue_join ..)
  have reddened : Linked ((tree.setColor p .black).setColor g .red)
      (place.plug (join side .red g (join side .black p outer inner) aunt)) :=
    @Linked.setColor _ _ place side .black g (join side .black p outer inner) aunt blackened .red
  rw [← join_opposite side .black, ← join_opposite side .red] at reddened
  obtain ⟨raised, rotates, linkedRaised, keys⟩ := Linked.exists_rotate reddened
  refine ⟨raised, ?_, ?_, fun address => (keys address).trans ?_⟩
  · simp only [raiseParent, parentEq, Option.bind_eq_bind, Option.bind_some, grandparentEq, rotates]
    rfl
  · rw [join_opposite, join_opposite] at linkedRaised
    exact linkedRaised
  · simp only [BinaryTree.setColor, BinaryTree.nodes_modify]
    split_ifs <;> rfl

end Linked

theorem TreePlace.inorder_plug_congr {α : Type} (place : TreePlace α) {left right : ColoredTree α}
    (same : left.inorder = right.inorder) :
    (place.plug left).inorder = (place.plug right).inorder := by
  rw [inorder_plug, inorder_plug, same]

/-- What a step of the fix-up leaves. -/
structure FixedUp (before : ColoredTree Address) (depth : ℕ) (x : Address)
    (tree after : BinaryTree Key) : Prop where
  stands : ∃ place subtree height, Linked after (TreePlace.plug place subtree) ∧
    AlmostRedBlack place subtree x height ∧ place.length < depth ∧
    (place.plug subtree).inorder = before.inorder
  keys : ∀ address, (after.nodes address).key = (tree.nodes address).key

variable {tree : BinaryTree Key} {rest : TreePlace Address} {parentSide side : Side}
  {x p g : Address} {subtree sibling aunt : ColoredTree Address} {height : ℕ}

/-- A place with a red parent below a black grandparent. -/
abbrev belowRed (rest : TreePlace Address) (parentSide side : Side) (p g : Address)
    (sibling aunt : ColoredTree Address) : TreePlace Address :=
  ⟨parentSide, .red, p, sibling⟩ :: ⟨side, .black, g, aunt⟩ :: rest

section

variable (linked : Linked tree ((belowRed rest parentSide side p g sibling aunt).plug subtree))
  (almost : AlmostRedBlack (belowRed rest parentSide side p g sibling aunt) subtree x height)

include linked almost

theorem exists_fixUpAside_of_red (auntRed : aunt.rootColor = .red) :
    ∃ next after, fixUpAside side tree x p g = some (next, after) ∧
      FixedUp ((belowRed rest parentSide side p g sibling aunt).plug subtree) (rest.length + 2)
        next tree after := by
  have auntEq : (tree.nodes g).child side.opposite = aunt.rootValue :=
    (@Linked.child_eq _ _ rest _ _ _ _ _ linked).2
  obtain ⟨a, auntRoot⟩ : ∃ a, aunt.rootValue = some a := by
    cases aunt with
    | leaf => cases auntRed
    | node color a left right => exact ⟨a, rfl⟩
  have isRed : tree.isRed (some a) = true := by
    have focused : Linked tree (TreePlace.plug (⟨side.opposite, .black, g,
        join parentSide .red p subtree sibling⟩ :: rest) aunt) := by
      rw [TreePlace.plug, join_opposite]
      exact linked
    rw [BinaryTree.isRed, Option.any_some, focused.color_eq auntRoot, auntRed]
    rfl
  have steps : fixUpAside side tree x p g =
      some (g, ((tree.setColor p .black).setColor a .black).setColor g .red) := by
    simp only [fixUpAside, auntEq, auntRoot, isRed, if_true]
    rfl
  have blackened : Linked (tree.setColor p .black)
      (TreePlace.plug (⟨side, .black, g, aunt⟩ :: rest)
        (join parentSide .black p subtree sibling)) :=
    @Linked.setColor _ _ (⟨side, .black, g, aunt⟩ :: rest) _ _ _ _ _ linked .black
  obtain ⟨color, near, far, rfl⟩ := exists_eq_join auntRoot .left
  have auntBlackened : Linked ((tree.setColor p .black).setColor a .black)
      (TreePlace.plug (⟨side.opposite, .black, g,
        join parentSide .black p subtree sibling⟩ :: rest) (join .left .black a near far)) := by
    apply Linked.setColor
    rw [TreePlace.plug, join_opposite]
    exact blackened
  rw [TreePlace.plug, join_opposite] at auntBlackened
  refine ⟨g, _, steps, ⟨rest, _, 1 + height,
    @Linked.setColor _ _ rest _ _ _ _ _ auntBlackened .red, almost.recolored auntRed rfl rfl,
    by omega, ?_⟩, ?_⟩
  · apply inorder_plug_congr rest
    cases side <;> cases parentSide <;> rfl
  · intro address
    simp only [BinaryTree.setColor, BinaryTree.nodes_modify]
    split_ifs <;> rfl

/-- The step restructures when the aunt is black. -/
theorem exists_fixUpAside_of_black (auntBlack : aunt.rootColor = .black) :
    ∃ next after, fixUpAside side tree x p g = some (next, after) ∧
      FixedUp ((belowRed rest parentSide side p g sibling aunt).plug subtree) (rest.length + 2)
        next tree after := by
  have auntEq : (tree.nodes g).child side.opposite = aunt.rootValue :=
    (@Linked.child_eq _ _ rest _ _ _ _ _ linked).2
  have notRed : tree.isRed aunt.rootValue = false := by
    cases auntRoot : aunt.rootValue with
    | none => rfl
    | some a =>
      have focused : Linked tree (TreePlace.plug (⟨side.opposite, .black, g,
          join parentSide .red p subtree sibling⟩ :: rest) aunt) := by
        rw [TreePlace.plug, join_opposite]
        exact linked
      rw [BinaryTree.isRed, Option.any_some, focused.color_eq auntRoot, auntBlack]
      rfl
  have focused : Linked tree (TreePlace.plug (⟨side, .black, g, aunt⟩ :: rest)
    (join parentSide .red p subtree sibling)) := linked
  obtain ⟨legalSibling, legalParent, legalAunt, -, legalRest⟩ := almost.legal
  obtain ⟨siblingBlack, -⟩ := legalParent rfl
  obtain ⟨balancedSibling, balancedAunt, balancedRest⟩ := almost.balancedAbove
  simp only [blackCount, Nat.zero_add] at balancedAunt balancedRest
  rcases eq_or_ne parentSide side with rfl | inner
  · -- `x` is on the outer side of its parent.
    have notInner : some x ≠ (tree.nodes p).child parentSide.opposite := by
      rw [focused.child_eq.2]
      intro same
      have inSibling := mem_inorder_of_rootValue same.symm
      have apart := linked.focus.2.2
      rw [List.nodup_append] at apart
      exact apart.2.2 x (mem_inorder_of_rootValue almost.root) x
        (List.mem_cons_of_mem _ (List.mem_append_left _ inSibling)) rfl
    obtain ⟨after, raises, linkedAfter, keys⟩ :=
      @Linked.exists_raiseParent _ tree rest parentSide x p g subtree sibling aunt almost.root
        linked
    refine ⟨x, after, ?_, ⟨_, subtree, height, linkedAfter, AlmostRedBlack.restructured legalRest
      balancedRest almost.root almost.isRed almost.subtreeLegal legalSibling legalAunt siblingBlack
      auntBlack almost.balanced balancedSibling balancedAunt, by simp, ?_⟩, keys⟩
    · simp only [fixUpAside, auntEq, notRed, Bool.false_eq_true, if_false, if_neg notInner, raises]
    · apply inorder_plug_congr rest
      cases parentSide <;> simp [join, inorder]
  · -- `x` is on the inner side: a rotation around the parent puts it in the parent's place.
    obtain rfl := Side.eq_opposite_of_ne inner
    rw [join_opposite] at focused
    have isInner : some x = (tree.nodes p).child side.opposite := by
      rw [focused.child_eq.2, almost.root]
    obtain ⟨color, near, far, rfl⟩ := exists_eq_join almost.root side
    obtain rfl : color = .red := by simpa using almost.isRed
    obtain ⟨rotated, rotates, linkedRotated, rotatedKeys⟩ := Linked.exists_rotate focused
    obtain ⟨childrenBlack, legalNear, legalFar⟩ := noRedRed_join.mp almost.subtreeLegal
    obtain ⟨nearBlack, farBlack⟩ := childrenBlack rfl
    obtain ⟨lower, balancedNear, balancedFar, rfl⟩ := balanced_join.mp almost.balanced
    simp only [blackCount, Nat.zero_add] at balancedSibling balancedAunt balancedRest
    obtain ⟨after, raises, linkedAfter, keys⟩ :=
      @Linked.exists_raiseParent _ rotated rest side p x g (join side .red p sibling near) far aunt
        (rootValue_join ..) linkedRotated
    refine ⟨p, after, ?_, ⟨⟨side, .black, x, join side .red g far aunt⟩ :: rest,
      join side .red p sibling near, lower, linkedAfter, AlmostRedBlack.restructured legalRest
      balancedRest (rootValue_join ..) (rootColor_join ..) ?_ legalFar legalAunt farBlack
      auntBlack ?_ balancedFar balancedAunt, by simp, ?_⟩,
      fun address => (keys address).trans (rotatedKeys address)⟩
    · simp only [fixUpAside, auntEq, notRed, Bool.false_eq_true, if_false, if_pos isInner, rotates,
        Option.bind_eq_bind, Option.bind_some, raises]
    · exact noRedRed_join.mpr ⟨fun _ => ⟨siblingBlack, nearBlack⟩, legalSibling, legalNear⟩
    · exact balanced_join.mpr ⟨lower, balancedSibling, balancedNear, by simp [blackCount]⟩
    · apply inorder_plug_congr rest
      cases side <;> simp [join, inorder, Side.opposite]

end

/-- The fix-up returns, and leaves a red-black tree but for a root that may be red. -/
theorem exists_fixUp {fuel : ℕ} {tree : BinaryTree Key} {place : TreePlace Address}
    {subtree : ColoredTree Address} {x : Address} {height : ℕ}
    (linked : Linked tree (place.plug subtree)) (almost : AlmostRedBlack place subtree x height)
    (enough : place.length < fuel) :
    ∃ after shape total, fixUp fuel tree x = some after ∧ Linked after shape ∧ shape.NoRedRed ∧
      shape.Balanced total ∧ shape.inorder = (place.plug subtree).inorder ∧
      ∀ address, (after.nodes address).key = (tree.nodes address).key := by
  induction fuel generalizing tree place subtree x height with
  | zero => exact absurd enough (Nat.not_lt_zero _)
  | succ fuel ih =>
    cases place with
    | nil =>
      have isRoot : some x = tree.root := by
        rw [linked.root]
        exact almost.root.symm
      refine ⟨tree, subtree, height, ?_, linked, almost.subtreeLegal, almost.balanced, rfl,
        fun _ => rfl⟩
      rw [fixUp, if_pos isRoot]
    | cons parent above =>
      have notRoot := linked.root_ne almost.root
      have parentEq : (tree.nodes x).parent = some parent.value :=
        linked.parent_eq almost.root
      have belowParent : Linked tree (TreePlace.plug above
        (join parent.side parent.color parent.value subtree parent.sibling)) := linked
      have colorEq : (tree.nodes parent.value).color = parent.color := by
        rw [belowParent.color_eq (rootValue_join ..), rootColor_join]
      obtain ⟨parentSide, color, p, sibling⟩ := parent
      cases color with
      | black =>
        obtain ⟨total, balanced⟩ :=
          exists_balanced_plug almost.balancedAbove almost.balanced
        refine ⟨tree, _, total, ?_, linked, ?_, balanced, rfl, fun _ => rfl⟩
        · simp only [fixUp, if_neg notRoot, parentEq, Option.bind_eq_bind, Option.bind_some,
            if_pos colorEq]
          rfl
        · exact noRedRed_plug almost.legal almost.subtreeLegal fun _ => .inr ⟨_, rfl, rfl⟩
      | red =>
        obtain ⟨-, top, isTop, topBlack⟩ := almost.legal.2.1 rfl
        cases above with
        | nil => cases isTop
        | cons grandparent rest =>
          cases isTop
          obtain ⟨side, color, g, aunt⟩ := top
          obtain rfl : color = .black := topBlack
          have grandparentEq : (tree.nodes p).parent = some g :=
            belowParent.parent_eq (rootValue_join ..)
          have sideEq : (if some p = (tree.nodes g).left then Side.left else Side.right) =
              side := by
            have ⟨_, aboveParent, apart⟩ := belowParent.focus
            rw [rootValue_join] at aboveParent
            refine aboveParent.side_eq rfl fun inside => ?_
            rw [List.nodup_append] at apart
            exact apart.2.2 p (mem_inorder_of_rootValue (rootValue_join ..)) p inside rfl
          have stepped : ∃ next after, fixUpAside side tree x p g = some (next, after) ∧
              FixedUp ((belowRed rest parentSide side p g sibling aunt).plug subtree)
                (rest.length + 2) next tree after := by
            cases auntColor : aunt.rootColor with
            | red => exact exists_fixUpAside_of_red linked almost auntColor
            | black => exact exists_fixUpAside_of_black linked almost auntColor
          obtain ⟨next, after, steps, ⟨⟨newPlace, newSubtree, newHeight, newLinked,
            newAlmost, shorter, sameOrder⟩, sameKeys⟩⟩ := stepped
          have notBlack : (tree.nodes p).color ≠ .black := by
            rw [colorEq]
            exact fun impossible => Color.noConfusion impossible
          obtain ⟨final, shape, total, returns, finalLinked, legal, balanced, order, keys⟩ :=
            ih newLinked newAlmost (by simp only [List.length_cons] at enough; omega)
          refine ⟨final, shape, total, ?_, finalLinked, legal, balanced,
            order.trans sameOrder, fun address => (keys address).trans (sameKeys address)⟩
          simp only [fixUp, if_neg notRoot, parentEq, Option.bind_eq_bind,
            Option.bind_some, if_neg notBlack, grandparentEq, sideEq, steps]
          exact returns

end DaveCC.Container
