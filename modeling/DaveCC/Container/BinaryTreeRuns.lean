import DaveCC.Container.BinaryTreeFixUp
import Mathlib.Order.Lattice

/-!
# Runs of insertions into the symbol tree

An insertion goes down to the leaf where the key belongs, links the node there and fixes
up the colours, or stops at a node with the key. Every tree that insertions reach is a
red-black search tree, and a search finds the keys that were inserted.
-/

namespace DaveCC.Container

open ColoredTree TreePlace BinaryTree

variable {Key : Type} [LinearOrder Key]

/-- The key of a node. -/
def BinaryTree.keyOf (tree : BinaryTree Key) (address : Address) : Key :=
  (tree.nodes address).key

/-- The store holds a red-black search tree: the keys ascend in order, the root is black,
no red node has a red child, and every path has the same number of black nodes. The
pointers of the nodes agree with the shape in both directions. -/
structure SymbolTree (tree : BinaryTree Key) (shape : ColoredTree Address) : Prop where
  linked : Linked tree shape
  ascending : (shape.inorder.map tree.keyOf).Pairwise (· < ·)
  rootBlack : shape.rootColor = .black
  noRedRed : shape.NoRedRed
  balanced : ∃ height, shape.Balanced height

/-- The pointer at a place. -/
def TreePlace.slot : TreePlace Address → TreeSlot
  | [] => .root
  | frame :: _ => .child frame.value frame.side

variable {tree : BinaryTree Key}

theorem HoldsAbove.read_slot {place : TreePlace Address} {pointer : Option Address}
    (above : HoldsAbove tree.nodes tree.root place pointer) :
    (TreePlace.slot place).read tree = pointer := by
  cases place with
  | nil => exact above
  | cons frame rest => exact above.1.2.1

/-- A place where a key belongs: everything before it is smaller and everything after it
larger, and a red node that is linked there breaks nothing but the colour rule. -/
structure Belongs (tree : BinaryTree Key) (key : Key) (place : TreePlace Address)
    (height : ℕ) : Prop where
  smaller : ∀ address ∈ place.before, tree.keyOf address < key
  larger : ∀ address ∈ place.after, key < tree.keyOf address
  legal : place.Legal
  balanced : TreePlace.Balanced place height

/-- One step down, on the side where the key belongs. -/
theorem Belongs.descend {tree : BinaryTree Key} {key : Key} {place : TreePlace Address}
    {height : ℕ} {side : Side} {color : Color} {address : Address}
    {near far : ColoredTree Address} (belongs : Belongs tree key place height)
    (legal : (join side color address near far).NoRedRed)
    (meets : color = .red → place = [] ∨ place.BelowBlack) (rootBlack : place = [] → color = .black)
    (balanced : (join side color address near far).Balanced height)
    (smaller : ∀ other ∈ (aside side address far).1, tree.keyOf other < key)
    (larger : ∀ other ∈ (aside side address far).2, key < tree.keyOf other) :
    ∃ lower, Belongs tree key (⟨side, color, address, far⟩ :: place) lower ∧ near.NoRedRed ∧
      (near.rootColor = .red → color = .black) ∧ near.Balanced lower := by
  obtain ⟨childrenBlack, legalNear, legalFar⟩ := noRedRed_join.mp legal
  obtain ⟨lower, balancedNear, balancedFar, rfl⟩ := balanced_join.mp balanced
  refine ⟨lower, ⟨?_, ?_, ⟨legalFar, ?_, belongs.legal⟩, balancedFar, belongs.balanced⟩, legalNear,
    ?_, balancedNear⟩
  · intro other inside
    rw [TreePlace.before, List.mem_append] at inside
    exact inside.elim (belongs.smaller other) (smaller other)
  · intro other inside
    rw [TreePlace.after, List.mem_append] at inside
    exact inside.elim (larger other) (belongs.larger other)
  · intro isRed
    refine ⟨(childrenBlack isRed).2, (meets isRed).resolve_left fun empty => ?_⟩
    exact Color.noConfusion (isRed.symm.trans (rootBlack empty))
  · intro nearRed
    cases color with
    | black => rfl
    | red => exact Color.noConfusion (nearRed.symm.trans (childrenBlack rfl).1)

theorem insertNode_spec {tree : BinaryTree Key} {node : Address} {fuel : ℕ}
    {place : TreePlace Address} {subtree : ColoredTree Address} {height : ℕ}
    (linked : Linked tree (place.plug subtree))
    (ascending : ((place.plug subtree).inorder.map tree.keyOf).Pairwise (· < ·))
    (belongs : Belongs tree (tree.keyOf node) place height) (legal : subtree.NoRedRed)
    (meets : subtree.rootColor = .red → place = [] ∨ place.BelowBlack)
    (rootBlack : place = [] → subtree.rootColor = .black)
    (balanced : subtree.Balanced height) (enough : subtree.inorder.length < fuel) :
    (∃ address ∈ (place.plug subtree).inorder, tree.keyOf address = tree.keyOf node ∧
      insertNode node fuel tree place.slot place.parentValue = some (false, tree)) ∨
    ∃ bottom : TreePlace Address, bottom.plug .leaf = place.plug subtree ∧
      Belongs tree (tree.keyOf node) bottom 0 ∧
      insertNode node fuel tree place.slot place.parentValue =
        some (true, (bottom.slot.write tree node).setParent node bottom.parentValue) := by
  induction fuel generalizing place subtree height with
  | zero => exact absurd enough (Nat.not_lt_zero _)
  | succ fuel ih =>
    have read := linked.focus.2.1.read_slot
    cases subtree with
    | leaf =>
      obtain rfl := balanced_leaf_iff.mp balanced
      refine .inr ⟨place, rfl, belongs, ?_⟩
      simp only [insertNode, read, rootValue]
    | node color address left right =>
      have whole : (place.plug (.node color address left right)).inorder =
          place.before ++ (left.inorder ++ address :: right.inorder) ++ place.after :=
        inorder_plug place _
      have member : address ∈ (place.plug (.node color address left right)).inorder := by
        rw [whole]
        simp
      have sorted := ascending
      rw [whole] at sorted
      simp only [List.map_append, List.map_cons, List.pairwise_append, List.pairwise_cons,
        List.mem_append, List.mem_cons, List.mem_map] at sorted
      obtain ⟨⟨-, ⟨-, ⟨rightLarger, -⟩, leftSmaller⟩, -⟩, -, -⟩ := sorted
      simp only [inorder, List.length_append, List.length_cons] at enough
      simp only [insertNode, read, rootValue]
      cases order : compare (tree.nodes address).key (tree.nodes node).key with
      | eq => exact .inl ⟨address, member, compare_eq_iff_eq.mp order, rfl⟩
      | gt =>
        have above : tree.keyOf node < tree.keyOf address := compare_gt_iff_gt.mp order
        obtain ⟨lower, belongsLeft, legalLeft, isBlack, balancedLeft⟩ :=
          @Belongs.descend _ _ tree _ place height .left color address left right belongs legal
            meets rootBlack balanced (fun _ inside => absurd inside List.not_mem_nil) (by
              intro other inside
              rcases List.mem_cons.mp inside with rfl | inRight
              · exact above
              · exact lt_trans above (rightLarger _ ⟨other, inRight, rfl⟩))
        exact @ih (⟨.left, color, address, right⟩ :: place) left lower linked ascending
          belongsLeft legalLeft (fun isRed => .inr ⟨_, rfl, isBlack isRed⟩)
          (fun impossible => absurd impossible (List.cons_ne_nil _ _)) balancedLeft (by omega)
      | lt =>
        have below : tree.keyOf address < tree.keyOf node := compare_lt_iff_lt.mp order
        obtain ⟨lower, belongsRight, legalRight, isBlack, balancedRight⟩ :=
          @Belongs.descend _ _ tree _ place height .right color address right left belongs
            (noRedRed_join.mpr ⟨fun isRed => (legal.1 isRed).symm, legal.2.symm⟩)
            meets rootBlack balanced (by
              intro other inside
              rcases List.mem_append.mp inside with inLeft | isTop
              · exact lt_trans (leftSmaller _ ⟨other, inLeft, rfl⟩ _ (.inl rfl)) below
              · cases List.mem_singleton.mp isTop
                exact below) (fun _ inside => absurd inside List.not_mem_nil)
        exact @ih (⟨.right, color, address, left⟩ :: place) right lower linked ascending
          belongsRight legalRight (fun isRed => .inr ⟨_, rfl, isBlack isRed⟩)
          (fun impossible => absurd impossible (List.cons_ne_nil _ _)) balancedRight (by omega)

/-- A new node: red, without children. -/
structure Initial (tree : BinaryTree Key) (node : Address) : Prop where
  color : (tree.nodes node).color = .red
  left : (tree.nodes node).left = none
  right : (tree.nodes node).right = none

omit [LinearOrder Key] in
theorem Linked.write {tree : BinaryTree Key} {node : Address} {bottom : TreePlace Address}
    (linked : Linked tree (bottom.plug .leaf)) (initial : Initial tree node)
    (fresh : node ∉ (bottom.plug .leaf).inorder) :
    Linked ((bottom.slot.write tree node).setParent node bottom.parentValue)
        (bottom.plug (.node .red node .leaf .leaf)) ∧
      ∀ address, ((bottom.slot.write tree node).setParent node bottom.parentValue).keyOf address =
        tree.keyOf address := by
  obtain ⟨-, above, distinct⟩ := linked.focus
  have absent : node ∉ bottom.values := fun inside =>
    fresh ((bottom.perm_inorder_plug .leaf).mem_iff.mpr (List.mem_append_right _ inside))
  rw [inorder, List.nil_append] at distinct
  have written : ∀ address, (bottom.slot.write tree node).nodes address =
      bottom.head?.elim (tree.nodes address) fun frame =>
        if address = frame.value then (tree.nodes address).setChild frame.side (some node)
        else tree.nodes address := by
    intro address
    cases bottom with
    | nil => rfl
    | cons frame rest => exact nodes_setChild ..
  have kept : ∀ address ∈ bottom.values,
      ((bottom.slot.write tree node).setParent node bottom.parentValue).nodes address =
        (bottom.slot.write tree node).nodes address := by
    intro address inside
    rw [nodes_setParent, if_neg (ne_of_mem_of_not_mem inside absent)]
  have own : (bottom.slot.write tree node).nodes node = tree.nodes node := by
    rw [written]
    cases bottom with
    | nil => rfl
    | cons frame rest =>
      refine if_neg fun same => absent ?_
      rw [same]
      exact List.mem_cons_self
  refine ⟨Linked.unfocus ?_ ?_ ?_, ?_⟩
  · rw [Holds, nodes_setParent, if_pos rfl, own]
    exact ⟨initial.color, initial.left, initial.right, rfl, trivial, trivial⟩
  · apply above.replace distinct
    · intro frame isTop
      cases bottom with
      | nil => cases isTop
      | cons top rest =>
        cases isTop
        rw [kept _ List.mem_cons_self, written]
        exact if_pos rfl
    · cases bottom with
      | nil => rfl
      | cons top rest => rfl
    · intro address inside notParent
      rw [kept address inside, written]
      cases bottom with
      | nil => rfl
      | cons top rest => exact if_neg fun same => notParent (congrArg some same.symm)
  · rw [inorder, inorder, List.nil_append, List.singleton_append, List.nodup_cons]
    exact ⟨absent, distinct⟩
  · intro address
    rw [BinaryTree.keyOf, nodes_setParent, BinaryTree.keyOf]
    have sameKey : ((bottom.slot.write tree node).nodes address).key = (tree.nodes address).key := by
      rw [written]
      cases bottom with
      | nil => rfl
      | cons frame rest =>
        simp only [List.head?_cons, Option.elim_some]
        split
        · exact BinaryTreeNode.key_setChild ..
        · rfl
    split
    · exact sameKey
    · exact sameKey

theorem TreePlace.length_le_values {α : Type} (place : TreePlace α) :
    place.length ≤ (TreePlace.values place).length := by
  induction place with
  | nil => exact Nat.le_refl _
  | cons frame rest ih =>
    simp only [TreePlace.values, List.length_cons, List.length_append]
    omega

omit [LinearOrder Key] in
/-- The last assignment of an insertion makes the root black. -/
theorem Linked.setColor_root {tree : BinaryTree Key} {shape : ColoredTree Address} {root : Address}
    (linked : Linked tree shape) (isRoot : shape.rootValue = some root) :
    Linked (tree.setColor root .black) (shape.recolor .black) := by
  cases shape with
  | leaf => cases isRoot
  | node color top left right =>
    cases isRoot
    exact @Linked.setColor _ tree [] .left color root left right linked .black

/-- An insertion refuses a key that is there, and else links the node and gives a
red-black search tree again. -/
theorem exists_binaryTreeNodeInsert {tree : BinaryTree Key} {shape : ColoredTree Address}
    {node : Address} {fuel : ℕ} (symbols : SymbolTree tree shape) (initial : Initial tree node)
    (fresh : node ∉ shape.inorder) (enough : shape.inorder.length < fuel) :
    (tree.keyOf node ∈ shape.inorder.map tree.keyOf ∧
      binaryTreeNodeInsert fuel tree node = some (false, tree)) ∨
    (tree.keyOf node ∉ shape.inorder.map tree.keyOf ∧
      ∃ after grown, binaryTreeNodeInsert fuel tree node = some (true, after) ∧
        SymbolTree after grown ∧ grown.inorder.Perm (node :: shape.inorder) ∧
        ∀ address, after.keyOf address = tree.keyOf address) := by
  obtain ⟨height, balanced⟩ := symbols.balanced
  have atRoot : Belongs tree (tree.keyOf node) [] height :=
    ⟨fun _ inside => absurd inside List.not_mem_nil,
      fun _ inside => absurd inside List.not_mem_nil, trivial, trivial⟩
  rcases @insertNode_spec _ _ tree node fuel [] shape height symbols.linked symbols.ascending atRoot
    symbols.noRedRed (fun _ => .inl rfl) (fun _ => symbols.rootBlack) balanced enough with
    ⟨address, inside, same, refuses⟩ | ⟨bottom, whole, belongs, descends⟩
  · refine .inl ⟨List.mem_map.mpr ⟨address, inside, same⟩, ?_⟩
    rw [binaryTreeNodeInsert]
    simp only [TreePlace.slot, parentValue, List.head?_nil, Option.map_none] at refuses
    simp only [refuses, Option.bind_eq_bind, Option.bind_some]
    rfl
  · replace whole : bottom.plug .leaf = shape := whole
    have linkedBottom : Linked tree (bottom.plug .leaf) := whole ▸ symbols.linked
    have order : bottom.before ++ bottom.after = shape.inorder := by
      have split := inorder_plug bottom .leaf
      rw [whole, inorder, List.append_nil] at split
      exact split.symm
    obtain ⟨linkedNode, sameKeys⟩ := linkedBottom.write initial (whole ▸ fresh)
    have almost : AlmostRedBlack bottom (.node .red node .leaf .leaf) node 0 :=
      ⟨rfl, rfl, belongs.legal, ⟨fun _ => ⟨rfl, rfl⟩, trivial, trivial⟩, belongs.balanced,
        (@balanced_join _ .left .red node .leaf .leaf 0).mpr
          ⟨0, balanced_leaf_iff.mpr rfl, balanced_leaf_iff.mpr rfl, rfl⟩⟩
    have shallow : bottom.length < fuel := by
      have length := (bottom.perm_inorder_plug .leaf).length_eq
      rw [whole, List.length_append, show (leaf : ColoredTree Address).inorder = [] from rfl,
        List.length_nil, Nat.zero_add] at length
      have := bottom.length_le_values
      omega
    obtain ⟨fixed, grown, total, fixes, linkedFixed, noRedRed, balancedGrown, sameOrder, fixedKeys⟩ :=
      exists_fixUp linkedNode almost shallow
    have grownOrder : grown.inorder = bottom.before ++ node :: bottom.after := by
      rw [sameOrder, inorder_plug]
      simp [inorder]
    obtain ⟨root, isRoot⟩ : ∃ root, grown.rootValue = some root := by
      cases grown with
      | leaf =>
        rw [inorder] at grownOrder
        exact absurd grownOrder.symm (by simp)
      | node color root left right => exact ⟨root, rfl⟩
    have keys : ∀ address, (fixed.setColor root .black).keyOf address = tree.keyOf address := by
      intro address
      rw [← sameKeys address, BinaryTree.keyOf, BinaryTree.setColor, nodes_modify]
      split
      · exact fixedKeys address
      · exact fixedKeys address
    have keysMap : ∀ addresses : List Address,
        addresses.map (fixed.setColor root .black).keyOf = addresses.map tree.keyOf :=
      fun addresses => List.map_congr_left fun address _ => keys address
    refine .inr ⟨?_, fixed.setColor root .black, grown.recolor .black, ?_, ⟨?_, ?_, ?_, ?_, ?_⟩,
      ?_, keys⟩
    · intro present
      obtain ⟨address, inside, same⟩ := List.mem_map.mp present
      rw [← order, List.mem_append] at inside
      rcases inside with isBefore | isAfter
      · exact absurd same (ne_of_lt (belongs.smaller address isBefore))
      · exact absurd same (ne_of_gt (belongs.larger address isAfter))
    · rw [binaryTreeNodeInsert]
      simp only [TreePlace.slot, parentValue, List.head?_nil, Option.map_none] at descends
      have rootEq : fixed.root = some root := linkedFixed.root.trans isRoot
      simp only [TreePlace.slot, parentValue] at fixes
      simp only [descends, Option.bind_eq_bind, Option.bind_some, Bool.not_true, Bool.false_eq_true,
        if_false, fixes, rootEq]
      rfl
    · exact linkedFixed.setColor_root isRoot
    · have sorted := symbols.ascending
      rw [inorder_recolor, keysMap, grownOrder]
      rw [← order, List.map_append, List.pairwise_append] at sorted
      rw [List.map_append, List.map_cons, List.pairwise_append, List.pairwise_cons]
      obtain ⟨sortedBefore, sortedAfter, across⟩ := sorted
      refine ⟨sortedBefore, ⟨?_, sortedAfter⟩, ?_⟩
      · rw [List.forall_mem_map]
        exact belongs.larger
      · rw [List.forall_mem_map]
        intro address isBefore key inside
        rcases List.mem_cons.mp inside with rfl | inside
        · exact belongs.smaller address isBefore
        · exact across _ (List.mem_map_of_mem isBefore) key inside
    · exact rootColor_recolor isRoot .black
    · exact noRedRed_recolor_black noRedRed
    · exact exists_balanced_recolor balancedGrown .black
    · rw [inorder_recolor, grownOrder, ← order]
      exact List.perm_middle

/-! ## Searching -/

theorem binaryTreeNodeSearch_spec {tree : BinaryTree Key} {key : Key} {fuel : ℕ}
    {parent : Option Address} {shape : ColoredTree Address} (holds : Holds tree.nodes parent shape)
    (ascending : (shape.inorder.map tree.keyOf).Pairwise (· < ·))
    (enough : shape.inorder.length < fuel) :
    ∃ found, binaryTreeNodeSearch tree key fuel shape.rootValue = some found ∧
      (∀ address, found = some address ↔ address ∈ shape.inorder ∧ tree.keyOf address = key) := by
  induction fuel generalizing parent shape with
  | zero => exact absurd enough (Nat.not_lt_zero _)
  | succ fuel ih =>
    cases shape with
    | leaf =>
      refine ⟨none, rfl, fun address => ?_⟩
      simp [inorder]
    | node color top left right =>
      obtain ⟨-, leftEq, rightEq, -, holdsLeft, holdsRight⟩ := holds
      simp only [inorder, List.map_append, List.map_cons, List.pairwise_append,
        List.pairwise_cons, List.forall_mem_cons, List.forall_mem_map] at ascending
      obtain ⟨ascendingLeft, ⟨topSmaller, ascendingRight⟩, leftSmaller⟩ := ascending
      simp only [inorder, List.length_append, List.length_cons] at enough
      simp only [rootValue, binaryTreeNodeSearch]
      cases order : compare (tree.nodes top).key key with
      | eq =>
        have same : tree.keyOf top = key := compare_eq_iff_eq.mp order
        refine ⟨some top, rfl, fun address => ?_⟩
        simp only [inorder, List.mem_append, List.mem_cons, Option.some.injEq]
        constructor
        · rintro rfl
          exact ⟨.inr (.inl rfl), same⟩
        · rintro ⟨inLeft | rfl | inRight, sameKey⟩
          · exact absurd (sameKey.trans same.symm) (ne_of_lt (leftSmaller address inLeft).1)
          · rfl
          · exact absurd (sameKey.trans same.symm) (ne_of_gt (topSmaller address inRight))
      | gt =>
        have larger : key < tree.keyOf top := compare_gt_iff_gt.mp order
        obtain ⟨found, searches, exactly⟩ := ih holdsLeft ascendingLeft (by omega)
        refine ⟨found, by rw [leftEq]; exact searches, fun address => ?_⟩
        rw [exactly]
        simp only [inorder, List.mem_append, List.mem_cons]
        constructor
        · exact And.imp_left .inl
        · rintro ⟨inLeft | rfl | inRight, rfl⟩
          · exact ⟨inLeft, rfl⟩
          · exact absurd larger (lt_irrefl _)
          · exact absurd larger (lt_asymm (topSmaller address inRight))
      | lt =>
        have smaller : tree.keyOf top < key := compare_lt_iff_lt.mp order
        obtain ⟨found, searches, exactly⟩ := ih holdsRight ascendingRight (by omega)
        refine ⟨found, by rw [rightEq]; exact searches, fun address => ?_⟩
        rw [exactly]
        simp only [inorder, List.mem_append, List.mem_cons]
        constructor
        · exact And.imp_left fun inRight => .inr (.inr inRight)
        · rintro ⟨inLeft | rfl | inRight, rfl⟩
          · exact absurd smaller (lt_asymm (leftSmaller address inLeft).1)
          · exact absurd smaller (lt_irrefl _)
          · exact ⟨inRight, rfl⟩

/-- Insert new nodes with keys one after the other: which insertions succeed, and the
tree. -/
def insertSymbols (fuel : ℕ) :
    List (Address × Key) → BinaryTree Key → Option (List Bool × BinaryTree Key)
  | [], tree => some ([], tree)
  | (address, key) :: rest, tree => do
      let (ok, tree) ← binaryTreeNodeInsert fuel (binaryTreeNodeInit tree address key) address
      let (oks, tree) ← insertSymbols fuel rest tree
      return (ok :: oks, tree)

/-- Which keys of a sequence come for the first time, after some that have come. -/
def firstTimes (seen : List Key) : List Key → List Bool
  | [] => []
  | key :: rest => decide (key ∉ seen) :: firstTimes (key :: seen) rest

/-- A new node outside the tree leaves it. -/
theorem SymbolTree.init {shape : ColoredTree Address} (symbols : SymbolTree tree shape)
    {node : Address} (fresh : node ∉ shape.inorder) (key : Key) :
    SymbolTree (binaryTreeNodeInit tree node key) shape ∧
      Initial (binaryTreeNodeInit tree node key) node ∧
      (binaryTreeNodeInit tree node key).keyOf node = key ∧
      ∀ address ∈ shape.inorder,
        (binaryTreeNodeInit tree node key).keyOf address = tree.keyOf address := by
  have own : (binaryTreeNodeInit tree node key).nodes node = { key := key } :=
    Function.update_self ..
  have kept : ∀ address ∈ shape.inorder,
      (binaryTreeNodeInit tree node key).nodes address = tree.nodes address :=
    fun address inside => Function.update_of_ne (ne_of_mem_of_not_mem inside fresh) ..
  have keys : ∀ address ∈ shape.inorder,
      (binaryTreeNodeInit tree node key).keyOf address = tree.keyOf address :=
    fun address inside => congrArg BinaryTreeNode.key (kept address inside)
  refine ⟨⟨⟨symbols.linked.holds.congr kept, symbols.linked.root, symbols.linked.distinct⟩, ?_,
    symbols.rootBlack, symbols.noRedRed, symbols.balanced⟩, ⟨?_, ?_, ?_⟩, ?_, keys⟩
  · rw [List.map_congr_left keys]
    exact symbols.ascending
  · rw [own]
  · rw [own]
  · rw [own]
  · rw [BinaryTree.keyOf, own]

theorem exists_insertSymbols {fuel : ℕ} {calls : List (Address × Key)} {tree : BinaryTree Key}
    {shape : ColoredTree Address} {seen : List Key} (symbols : SymbolTree tree shape)
    (keys : ∀ key, key ∈ shape.inorder.map tree.keyOf ↔ key ∈ seen)
    (distinct : (calls.map Prod.fst).Nodup)
    (fresh : ∀ address ∈ shape.inorder, address ∉ calls.map Prod.fst)
    (enough : shape.inorder.length + calls.length < fuel) :
    ∃ after grown, insertSymbols fuel calls tree =
        some (firstTimes seen (calls.map Prod.snd), after) ∧
      SymbolTree after grown ∧
      (∀ key, key ∈ grown.inorder.map after.keyOf ↔ key ∈ seen ∨ key ∈ calls.map Prod.snd) ∧
      (∀ address ∈ grown.inorder, address ∈ shape.inorder ∨ address ∈ calls.map Prod.fst) ∧
      grown.inorder.length ≤ shape.inorder.length + calls.length := by
  induction calls generalizing tree shape seen with
  | nil =>
    refine ⟨tree, shape, rfl, symbols, ?_, fun _ => .inl, Nat.le_refl _⟩
    simpa using keys
  | cons call rest ih =>
    obtain ⟨address, key⟩ := call
    rw [List.map_cons, List.nodup_cons] at distinct
    have absent : address ∉ shape.inorder := fun inside => fresh address inside (by simp)
    have freshRest : ∀ other ∈ shape.inorder, other ∉ rest.map Prod.fst :=
      fun other inside later => fresh other inside (List.mem_cons_of_mem _ later)
    obtain ⟨ready, initial, ownKey, keptKeys⟩ := symbols.init absent key
    rw [List.length_cons] at enough
    have readyKeys : (binaryTreeNodeInit tree address key).keyOf address ∈
        shape.inorder.map (binaryTreeNodeInit tree address key).keyOf ↔ key ∈ seen := by
      rw [ownKey, List.map_congr_left keptKeys, keys]
    rcases @exists_binaryTreeNodeInsert _ _ _ _ address fuel ready initial absent (by omega) with
      ⟨present, refuses⟩ | ⟨missing, after, grown, inserts, grownSymbols, order, sameKeys⟩
    · rw [readyKeys] at present
      obtain ⟨final, finalShape, runs, finalSymbols, finalKeys, finalAddresses, shorter⟩ :=
        @ih (binaryTreeNodeInit tree address key) shape (key :: seen) ready (by
          intro other
          rw [List.map_congr_left keptKeys, keys, List.mem_cons]
          refine ⟨.inr, fun either => either.elim (fun same => same ▸ present) id⟩)
          distinct.2 freshRest (by omega)
      refine ⟨final, finalShape, ?_, finalSymbols, ?_, ?_, ?_⟩
      · simp only [insertSymbols, refuses, Option.bind_eq_bind, Option.bind_some, runs,
          List.map_cons, firstTimes, present, not_true_eq_false, decide_false]
        rfl
      · intro other
        rw [finalKeys, List.map_cons, List.mem_cons, List.mem_cons]
        constructor
        · rintro ((rfl | inSeen) | later)
          · exact .inr (.inl rfl)
          · exact .inl inSeen
          · exact .inr (.inr later)
        · rintro (inSeen | rfl | later)
          · exact .inl (.inr inSeen)
          · exact .inl (.inl rfl)
          · exact .inr later
      · exact fun other inside => (finalAddresses other inside).imp id (List.mem_cons_of_mem _)
      · rw [List.length_cons]
        omega
    · rw [readyKeys] at missing
      have grownKeys : ∀ other, other ∈ grown.inorder.map after.keyOf ↔ other ∈ key :: seen := by
        intro other
        rw [(order.map after.keyOf).mem_iff, List.map_cons, List.mem_cons, List.mem_cons,
          sameKeys, ownKey, ← keys, List.map_congr_left fun inner _ => sameKeys inner,
          List.map_congr_left keptKeys]
      have grownLength := order.length_eq
      rw [List.length_cons] at grownLength
      obtain ⟨final, finalShape, runs, finalSymbols, finalKeys, finalAddresses, shorter⟩ :=
        @ih after grown (key :: seen) grownSymbols grownKeys distinct.2 (by
          intro other inside
          rcases List.mem_cons.mp (order.mem_iff.mp inside) with rfl | earlier
          · exact distinct.1
          · exact freshRest other earlier) (by omega)
      refine ⟨final, finalShape, ?_, finalSymbols, ?_, ?_, ?_⟩
      · simp only [insertSymbols, inserts, Option.bind_eq_bind, Option.bind_some, runs,
          List.map_cons, firstTimes, missing, not_false_eq_true, decide_true]
        rfl
      · intro other
        rw [finalKeys, List.map_cons, List.mem_cons, List.mem_cons]
        constructor
        · rintro ((rfl | inSeen) | later)
          · exact .inr (.inl rfl)
          · exact .inl inSeen
          · exact .inr (.inr later)
        · rintro (inSeen | rfl | later)
          · exact .inl (.inr inSeen)
          · exact .inl (.inl rfl)
          · exact .inr later
      · intro other inside
        rcases finalAddresses other inside with earlier | later
        · rcases List.mem_cons.mp (order.mem_iff.mp earlier) with rfl | earlier
          · exact .inr List.mem_cons_self
          · exact .inl earlier
        · exact .inr (List.mem_cons_of_mem _ later)
      · rw [List.length_cons]
        omega

/-- Every sequence of insertions of new nodes, with any keys, goes through and leaves a
red-black search tree. An insertion is refused exactly when its key has come before, a
further insertion of a key that has come leaves the tree as it is, and a search finds a
node with the key exactly when the key has come. -/
theorem insertSymbols_correct {calls : List (Address × Key)} {fuel : ℕ}
    {nodes : Address → BinaryTreeNode Key} (distinct : (calls.map Prod.fst).Nodup)
    (enough : calls.length < fuel) :
    ∃ tree shape, insertSymbols fuel calls { nodes := nodes } =
        some (firstTimes [] (calls.map Prod.snd), tree) ∧
      SymbolTree tree shape ∧
      (∀ address key, address ∉ calls.map Prod.fst → key ∈ calls.map Prod.snd →
        binaryTreeNodeInsert fuel (binaryTreeNodeInit tree address key) address =
          some (false, binaryTreeNodeInit tree address key)) ∧
      ∀ key, ∃ found, binaryTreeNodeSearch tree key fuel tree.root = some found ∧
        (found.isSome ↔ key ∈ calls.map Prod.snd) ∧
        ∀ address ∈ found, address ∈ shape.inorder ∧ tree.keyOf address = key := by
  have empty : SymbolTree { nodes := nodes } .leaf :=
    ⟨⟨trivial, rfl, .nil⟩, .nil, rfl, trivial, 0, balanced_leaf_iff.mpr rfl⟩
  obtain ⟨tree, shape, runs, symbols, keys, addresses, shorter⟩ :=
    @exists_insertSymbols _ _ fuel calls { nodes := nodes } .leaf [] empty (fun _ => by simp [inorder])
      distinct (fun _ inside => absurd inside List.not_mem_nil) (by simpa [inorder] using enough)
  simp only [inorder, List.length_nil, Nat.zero_add, List.not_mem_nil, false_or]
    at keys addresses shorter
  refine ⟨tree, shape, runs, symbols, ?_, ?_⟩
  · intro address key fresh known
    have absent : address ∉ shape.inorder := fun inside => fresh (addresses address inside)
    obtain ⟨ready, initial, ownKey, keptKeys⟩ := symbols.init absent key
    rcases @exists_binaryTreeNodeInsert _ _ _ _ address fuel ready initial absent (by omega) with
      ⟨-, refuses⟩ | ⟨missing, -⟩
    · exact refuses
    · rw [ownKey, List.map_congr_left keptKeys, keys] at missing
      exact absurd known missing
  · intro key
    obtain ⟨found, searches, exactly⟩ :=
      @binaryTreeNodeSearch_spec _ _ tree key fuel none shape symbols.linked.holds symbols.ascending
        (by omega)
    refine ⟨found, by rw [symbols.linked.root]; exact searches, ?_, ?_⟩
    · rw [← keys, List.mem_map, Option.isSome_iff_exists]
      exact exists_congr exactly
    · exact fun address isFound => (exactly address).mp isFound

/-- Three keys, one of them twice. -/
theorem insertSymbols_correct_example :
    ∃ tree shape, insertSymbols 5 [(1, 30), (2, 10), (3, 20), (4, 10)]
        { nodes := fun _ => { key := 0 } } =
        some (firstTimes [] [30, 10, 20, 10], tree) ∧
      SymbolTree tree shape ∧ firstTimes [] [30, 10, 20, 10] = [true, true, true, false] := by
  have ⟨tree, shape, runs, symbols, _⟩ :=
    @insertSymbols_correct ℕ _ [(1, 30), (2, 10), (3, 20), (4, 10)] 5 (fun _ => { key := 0 })
      (by decide) (by decide)
  exact ⟨tree, shape, runs, symbols, by decide⟩

end DaveCC.Container
