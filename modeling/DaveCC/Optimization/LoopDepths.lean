import DaveCC.Optimization.LoopNesting

/-!
# The depths of the loops

The last loop of `LoopInfoBuild` returns whatever the loops are, as a parent has more blocks
than its children. It records the depths that the parents determine, and in every block the
deepest loop around it.
-/

namespace DaveCC.Optimization

open DaveCC.Backend DaveCC.Container DaveCC.Graph DaveCC.Loop

variable {graph : ControlFlowGraph} {fuel : Nat}

namespace LoopTable

variable {table left middle right base : LoopTable} {id : Nat}

/-- The loops of two tables have the same parents and children too. -/
structure SameNesting (left right : LoopTable) : Prop extends left.SameLoops right where
  parent : ∀ id, (left.loop id).parent = (right.loop id).parent
  children : ∀ id, (left.loop id).children = (right.loop id).children

theorem SameNesting.refl (table : LoopTable) : table.SameNesting table :=
  ⟨.refl table, fun _ => rfl, fun _ => rfl⟩

theorem SameNesting.trans (first : left.SameNesting middle) (second : middle.SameNesting right) :
    left.SameNesting right where
  toSameLoops := first.toSameLoops.trans second.toSameLoops
  parent := fun id => (first.parent id).trans (second.parent id)
  children := fun id => (first.children id).trans (second.children id)

theorem Parented.congr (parented : right.Parented) (same : left.SameNesting right) :
    left.Parented where
  smallest := by
    simp only [IsSmallestAround, same.numLoops, same.blocksOf, same.parent]
    exact parented.smallest
  outermost := by
    simp only [same.numLoops, same.blocksOf, same.parent]
    exact parented.outermost
  children := by
    simp only [same.numLoops, same.parent, same.children]
    exact parented.children

/-- The table with other depths and preheaders. -/
def withPlaces (table : LoopTable) (depths : Nat → Nat) (preheaders : Nat → Option BlockId) :
    LoopTable :=
  { table with loop := fun id =>
      { table.loop id with depth := depths id, preheader := preheaders id } }

def depthOf (table : LoopTable) (id : Nat) : Nat := (table.loop id).depth

def preheaderOf (table : LoopTable) (id : Nat) : Option BlockId := (table.loop id).preheader

section

variable (depths : Nat → Nat) (preheaders : Nat → Option BlockId)

include depths preheaders

theorem innermostLoop_withPlaces :
    (table.withPlaces depths preheaders).innermostLoop = table.innermostLoop := rfl

theorem modifyLoop_depth (depth : Nat) :
    (table.withPlaces depths preheaders).modifyLoop id (fun loop => { loop with depth }) =
      table.withPlaces (Function.update depths id depth) preheaders := by
  rw [modifyLoop, withPlaces, withPlaces]
  congr 1
  funext other
  by_cases same : other = id
  · rw [same, Function.update_self, Function.update_self]
  · rw [Function.update_of_ne same, Function.update_of_ne same]

theorem modifyLoop_preheader (preheader : Option BlockId) :
    (table.withPlaces depths preheaders).modifyLoop id (fun loop => { loop with preheader }) =
      table.withPlaces depths (Function.update preheaders id preheader) := by
  rw [modifyLoop, withPlaces, withPlaces]
  congr 1
  funext other
  by_cases same : other = id
  · rw [same, Function.update_self, Function.update_self]
  · rw [Function.update_of_ne same, Function.update_of_ne same]

end

/-- The depths that the parents determine. -/
structure AreLevels (table : LoopTable) (levels : Nat → Nat) : Prop where
  outermost : ∀ id < table.numLoops, (table.loop id).parent = none → levels id = 1
  inner : ∀ id < table.numLoops, ∀ parent, (table.loop id).parent = some parent →
    levels id = levels parent + 1

theorem AreLevels.congr {levels : Nat → Nat} (areLevels : right.AreLevels levels)
    (same : left.SameNesting right) : left.AreLevels levels where
  outermost := by
    simp only [same.numLoops, same.parent]
    exact areLevels.outermost
  inner := by
    simp only [same.numLoops, same.parent]
    exact areLevels.inner

/-- A depth above one is the level of the loop. -/
def DepthsKnown (table : LoopTable) (levels : Nat → Nat) : Prop :=
  ∀ id, table.depthOf id > 1 → table.depthOf id = levels id

/-- Some depths of a table are replaced by levels. -/
def Deepened (table : LoopTable) (levels depths : Nat → Nat) : Prop :=
  ∀ id, depths id = table.depthOf id ∨ depths id = levels id

theorem calculateLoopDepth_outermost {levels : Nat → Nat} (areLevels : table.AreLevels levels)
    (inRange : id < table.numLoops) (isOutermost : (table.loop id).parent = none) :
    1 = levels id ∧ table.Deepened levels table.depthOf :=
  ⟨(areLevels.outermost id inRange isOutermost).symm, fun _ => Or.inl rfl⟩

/-- The recursion ends at an outermost loop, as the loops grow on the way. -/
theorem exists_calculateLoopDepth (parented : table.Parented) {size : Nat}
    (bounded : ∀ id < table.numLoops, (table.blocksOf id).card ≤ size)
    (inRange : id < table.numLoops) (enough : size ≤ (table.blocksOf id).card + fuel) :
    ∃ depth depths, table.calculateLoopDepth fuel id =
        some (depth, table.withPlaces depths table.preheaderOf) ∧
      ∀ levels, table.AreLevels levels → table.DepthsKnown levels →
        depth = levels id ∧ table.Deepened levels depths := by
  induction fuel generalizing id with
  | zero =>
    rw [calculateLoopDepth]
    cases isParent : (table.loop id).parent with
    | none =>
      exact ⟨1, table.depthOf, rfl, fun levels areLevels _ =>
        calculateLoopDepth_outermost areLevels inRange isParent⟩
    | some parent =>
      have around := parented.smallest id inRange parent isParent
      have larger := Finset.card_lt_card around.2.1
      have small := bounded parent around.1
      omega
  | succ fuel ih =>
    rw [calculateLoopDepth]
    cases isParent : (table.loop id).parent with
    | none =>
      exact ⟨1, table.depthOf, rfl, fun levels areLevels _ =>
        calculateLoopDepth_outermost areLevels inRange isParent⟩
    | some parent =>
      by_cases deep : (table.loop id).depth > 1
      · refine ⟨table.depthOf id, table.depthOf, if_pos deep, ?_⟩
        intro levels _ known
        exact ⟨known id deep, fun _ => Or.inl rfl⟩
      · have around := parented.smallest id inRange parent isParent
        have larger := Finset.card_lt_card around.2.1
        rcases ih around.1 (by omega) with ⟨above, depths, returns, spec⟩
        refine ⟨above + 1, Function.update depths id (above + 1), ?_, ?_⟩
        · dsimp only
          rw [if_neg deep, returns, ← modifyLoop_depth]
          rfl
        · intro levels areLevels known
          have ⟨isAbove, deepened⟩ := spec levels areLevels known
          have isLevel : above + 1 = levels id := by
            rw [isAbove, areLevels.inner id inRange parent isParent]
          refine ⟨isLevel, ?_⟩
          intro other
          by_cases same : other = id
          · rw [same, Function.update_self]
            exact Or.inr isLevel
          · rw [Function.update_of_ne same]
            exact deepened other

/-- The only predecessor of the header outside the loop. -/
def IsOnlyOutside (graph : ControlFlowGraph) (loop : LoopInfo) (outside : BlockId) : Prop :=
  graph.gen.Edge outside loop.header ∧ outside ∉ loop.blocks ∧
    ∀ source, graph.gen.Edge source loop.header → source ∉ loop.blocks → source = outside

/-- The predecessor outside among the first in edges. -/
def OutsideSoFar (loop : LoopInfo) (front : List BlockId) (outside : Option BlockId) : Prop :=
  (∀ found, outside = some found → found ∈ front ∧ found ∉ loop.blocks) ∧
    ∀ source ∈ front, source ∉ loop.blocks → outside = some source

variable {loop : LoopInfo}

theorem outsidePredecessor_spec {inEdges : List BlockId} {outside : Option BlockId}
    (returns : outsidePredecessor loop inEdges = some outside) :
    OutsideSoFar loop inEdges outside := by
  refine foldlM_induct (OutsideSoFar loop) ?_ ?_ returns
  · intro front item back found next _ known steps
    split at steps
    next inside =>
      cases steps
      refine ⟨?_, ?_⟩
      · intro other isFound
        have before := known.1 other isFound
        exact ⟨List.mem_append_left _ before.1, before.2⟩
      · intro source member isOutside
        cases List.mem_append.mp member with
        | inl before => exact known.2 source before isOutside
        | inr last =>
          rw [List.mem_singleton.mp last] at isOutside
          exact absurd inside isOutside
    next isOutside =>
      split at steps
      next => cases steps
      next same =>
        cases steps
        have agrees : ∀ other, found = some other → other = item := by
          intro other isFound
          rw [isFound] at same
          simpa using same
        refine ⟨?_, ?_⟩
        · intro other isFound
          cases isFound
          exact ⟨List.mem_append_right _ (List.mem_singleton_self _), isOutside⟩
        · intro source member sourceOutside
          cases List.mem_append.mp member with
          | inl before => rw [agrees source (known.2 source before sourceOutside)]
          | inr last => rw [List.mem_singleton.mp last]
  · constructor
    · intro other isFound
      cases isFound
    · intro source inside
      exact absurd inside List.not_mem_nil

theorem findPreheader_spec {outside : BlockId}
    (found : findPreheader graph.analyzed loop = some outside) :
    IsOnlyOutside graph loop outside := by
  rw [findPreheader] at found
  split at found
  next only returns =>
    split at found
    next =>
      cases found
      have spec := outsidePredecessor_spec returns
      have inside := spec.1 outside rfl
      refine ⟨mem_inEdges_analyzed.mp inside.1, inside.2, ?_⟩
      intro source follows isOutside
      have same := spec.2 source (mem_inEdges_analyzed.mpr follows) isOutside
      exact (Option.some_inj.mp same).symm
    next => cases found
  next => cases found

theorem setPreheader_eq (table : LoopTable) (id : Nat) :
    table.setPreheader id =
      table.modifyLoop id fun loop =>
        { loop with preheader :=
            (findPreheader table.toGenerator (table.loop id)).or (table.preheaderOf id) } := by
  rw [setPreheader]
  cases findPreheader table.toGenerator (table.loop id) with
  | none => exact (congrArg (fun loop => { table with loop }) (Function.update_eq_self id _)).symm
  | some preheader => rfl

/-! ## The blocks of a loop -/

/-- The innermost loop of the block is not as deep. -/
def deeper (table : LoopTable) (id : Nat) (block : BlockId) : Bool :=
  (table.innermostLoop block).all fun inner => table.depthOf id > table.depthOf inner

/-- The table after some blocks found themselves in a loop. -/
def entered (table : LoopTable) (id : Nat) (blocks : List BlockId) : LoopTable :=
  { table with
    innermostLoop := fun block =>
      if block ∈ blocks ∧ table.deeper id block then some id else table.innermostLoop block
    loopNesting := fun block =>
      if block ∈ blocks ∧ table.deeper id block then table.depthOf id
      else table.loopNesting block }

theorem enterBlock_entered (table : LoopTable) (id : Nat) (blocks : List BlockId) (item : BlockId) :
    enterBlock id (table.entered id blocks) item = table.entered id (blocks ++ [item]) := by
  have entersIff : ∀ block, (block ∈ blocks ++ [item] ∧ table.deeper id block = true) ↔
      (block ∈ blocks ∧ table.deeper id block = true) ∨
        (block = item ∧ table.deeper id item = true) := by
    intro block
    grind
  have isDeeper : (((table.entered id blocks).innermostLoop item).all fun inner =>
      decide (table.depthOf id > table.depthOf inner)) =
        (decide (item ∉ blocks) && table.deeper id item) := by
    by_cases inside : item ∈ blocks
    · by_cases deep : table.deeper id item = true
      · simp [entered, inside, deep]
      · simp [entered, deep]
        exact Bool.not_eq_true _ ▸ deep
    · simp [entered, inside, deeper]
  have unfolded : enterBlock id (table.entered id blocks) item =
      if (decide (item ∉ blocks) && table.deeper id item) = true then
        { table.entered id blocks with
          innermostLoop :=
            Function.update (table.entered id blocks).innermostLoop item (some id)
          loopNesting :=
            Function.update (table.entered id blocks).loopNesting item (table.depthOf id) }
      else table.entered id blocks := by
    rw [← isDeeper]
    rfl
  simp only [unfolded, Bool.and_eq_true, decide_eq_true_eq]
  by_cases enters : item ∉ blocks ∧ table.deeper id item = true
  · rw [if_pos enters]
    simp only [entered, entersIff]
    congr 1
    · funext block
      by_cases same : block = item
      · rw [same, Function.update_self, if_pos (Or.inr ⟨rfl, enters.2⟩)]
      · rw [Function.update_of_ne same]
        simp only [same, false_and, or_false]
    · funext block
      by_cases same : block = item
      · rw [same, Function.update_self, if_pos (Or.inr ⟨rfl, enters.2⟩)]
      · rw [Function.update_of_ne same]
        simp only [same, false_and, or_false]
  · have unchanged : ∀ block, (block ∈ blocks ∧ table.deeper id block = true) ∨
        (block = item ∧ table.deeper id item = true) ↔
          block ∈ blocks ∧ table.deeper id block = true := by
      intro block
      grind
    rw [if_neg enters]
    simp only [entered, entersIff, unchanged]

/-- The blocks that find themselves in a loop. -/
theorem foldl_enterBlock (table : LoopTable) (id : Nat) (blocks : List BlockId) :
    blocks.foldl (enterBlock id) table = table.entered id blocks := by
  apply foldl_induct (fun front state => state = table.entered id front)
  · intro front item back state _ same
    rw [same]
    exact table.enterBlock_entered id front item
  · simp [entered]

/-- What the blocks and the loops record for the first loops, when the parents determine
the levels. -/
structure Placed (base : LoopTable) (levels : Nat → Nat) (front : List Nat)
    (table : LoopTable) : Prop where
  known : table.DepthsKnown levels
  depth : ∀ id ∈ front, table.depthOf id = levels id
  innermost : ∀ block id, table.innermostLoop block = some id → id ∈ front ∧
    block ∈ base.blocksOf id ∧
      ∀ other ∈ front, block ∈ base.blocksOf other → levels other ≤ levels id
  outside : ∀ block, table.innermostLoop block = none →
    table.loopNesting block = 0 ∧ ∀ id ∈ front, block ∉ base.blocksOf id
  nesting : ∀ block id, table.innermostLoop block = some id → table.loopNesting block = levels id

/-- What the last loop keeps, whatever the loops are. -/
structure Finishing (graph : ControlFlowGraph) (base : LoopTable) (front : List Nat)
    (table : LoopTable) : Prop where
  same : table.SameNesting base
  preheader : ∀ id outside, table.preheaderOf id = some outside →
    IsOnlyOutside graph (base.loop id) outside
  placed : ∀ levels, base.AreLevels levels → base.Placed levels front table

variable {front : List Nat} {levels : Nat → Nat}

/-- A loop finds its blocks after those of the loops before it. -/
theorem Placed.enter (placed : base.Placed levels front table) {depths : Nat → Nat}
    (deepened : table.Deepened levels depths) (isLevel : depths id = levels id)
    (preheaders : Nat → Option BlockId) {blocks : List BlockId}
    (isBlock : ∀ block, block ∈ blocks ↔ block ∈ base.blocksOf id) :
    base.Placed levels (front ++ [id]) ((table.withPlaces depths preheaders).entered id blocks) := by
  have isDepth : ∀ other ∈ front, depths other = levels other := by
    intro other inside
    cases deepened other with
    | inl unchanged => rw [unchanged, placed.depth other inside]
    | inr isLevel => exact isLevel
  have isDeeper : ∀ block, (table.withPlaces depths preheaders).deeper id block = true ↔
      ∀ inner, table.innermostLoop block = some inner → levels inner < levels id := by
    intro block
    rw [deeper, Option.all_eq_true]
    simp only [decide_eq_true_eq]
    constructor
    · intro below inner isInner
      rw [← isLevel, ← isDepth inner (placed.innermost block inner isInner).1]
      exact below inner isInner
    · intro below inner isInner
      have known := below inner isInner
      rw [← isLevel, ← isDepth inner (placed.innermost block inner isInner).1] at known
      exact known
  have entersIff : ∀ block, (block ∈ blocks ∧
      (table.withPlaces depths preheaders).deeper id block = true) ↔
      block ∈ base.blocksOf id ∧
        ∀ inner, table.innermostLoop block = some inner → levels inner < levels id := by
    intro block
    rw [isBlock, isDeeper]
  have memberIff : ∀ other, other ∈ front ++ [id] ↔ other ∈ front ∨ other = id := by
    intro other
    rw [List.mem_append, List.mem_singleton]
  constructor
  · intro other deep
    cases deepened other with
    | inl unchanged =>
      have known := placed.known other
      rw [← unchanged] at known
      exact known deep
    | inr isLevel => exact isLevel
  · intro other inside
    cases (memberIff other).mp inside with
    | inl before => exact isDepth other before
    | inr last =>
      rw [last]
      exact isLevel
  · intro block inner isInner
    simp only [entered, entersIff, innermostLoop_withPlaces] at isInner
    split at isInner
    next enters =>
      cases isInner
      refine ⟨(memberIff id).mpr (Or.inr rfl), enters.1, ?_⟩
      intro other inside around
      cases (memberIff other).mp inside with
      | inl before =>
        cases isInner : table.innermostLoop block with
        | none => exact absurd around ((placed.outside block isInner).2 other before)
        | some inner =>
          have below := (placed.innermost block inner isInner).2.2 other before around
          exact below.trans (Nat.le_of_lt (enters.2 inner isInner))
      | inr last => rw [last]
    next stays =>
      have ⟨isFront, isAround, deepest⟩ := placed.innermost block inner isInner
      refine ⟨(memberIff inner).mpr (Or.inl isFront), isAround, ?_⟩
      intro other inside around
      cases (memberIff other).mp inside with
      | inl before => exact deepest other before around
      | inr last =>
        rw [last] at around ⊢
        apply Nat.not_lt.mp
        intro below
        apply stays
        refine ⟨around, ?_⟩
        intro found isFound
        rw [isInner] at isFound
        cases isFound
        exact below
  · intro block isNone
    simp only [entered, entersIff, innermostLoop_withPlaces] at isNone ⊢
    split at isNone
    next => cases isNone
    next stays =>
      have before := placed.outside block isNone
      rw [if_neg stays]
      refine ⟨before.1, ?_⟩
      intro other inside around
      cases (memberIff other).mp inside with
      | inl isFront => exact before.2 other isFront around
      | inr last =>
        apply stays
        refine ⟨last ▸ around, ?_⟩
        intro inner isInner
        rw [isNone] at isInner
        cases isInner
  · intro block inner isInner
    simp only [entered, entersIff, innermostLoop_withPlaces] at isInner ⊢
    split at isInner
    next enters =>
      cases isInner
      rw [if_pos enters]
      exact isLevel
    next stays =>
      rw [if_neg stays]
      exact placed.nesting block inner isInner

theorem Finishing.finishLoop (finishing : Finishing graph base front table)
    (isGraph : base.toGenerator = graph.analyzed) (parented : base.Parented)
    (bounded : ∀ id < base.numLoops, ∀ block ∈ base.blocksOf id, block < graph.size)
    (inRange : id < base.numLoops) (enough : graph.size ≤ fuel) :
    ∃ next, table.finishLoop fuel id = some next ∧
      Finishing graph base (front ++ [id]) next := by
  have same := finishing.same
  have small : ∀ other < table.numLoops, (table.blocksOf other).card ≤ graph.size := by
    intro other otherInRange
    rw [same.numLoops] at otherInRange
    rw [same.blocksOf]
    calc (base.blocksOf other).card ≤ (Finset.range graph.size).card := by
          apply Finset.card_le_card
          intro block inside
          exact Finset.mem_range.mpr (bounded other otherInRange block inside)
      _ = graph.size := Finset.card_range _
  rcases exists_calculateLoopDepth (parented.congr same) small (same.numLoops ▸ inRange)
    (Nat.le_add_left_of_le enough) with ⟨depth, depths, returns, spec⟩
  let preheaders := Function.update table.preheaderOf id
    ((findPreheader table.toGenerator (table.loop id)).or (table.preheaderOf id))
  let deepened := table.withPlaces (Function.update depths id depth) preheaders
  have result : table.finishLoop fuel id =
      some (deepened.entered id (iterate base.toGenerator (base.blocksOf id))) := by
    rw [LoopTable.finishLoop, returns]
    dsimp only [Option.bind_eq_bind, Option.bind_some]
    rw [modifyLoop_depth, setPreheader_eq, modifyLoop_preheader, foldl_enterBlock]
    rw [← same.blocksOf, ← same.isGraph]
    rfl
  refine ⟨_, result, ?_, ?_, ?_⟩
  · have unchanged : (deepened.entered id
        (iterate base.toGenerator (base.blocksOf id))).SameNesting table :=
      ⟨⟨rfl, rfl, fun _ => rfl, fun _ => rfl, fun _ => rfl, fun _ => rfl⟩,
        fun _ => rfl, fun _ => rfl⟩
    exact unchanged.trans same
  · intro other outside isPreheader
    have isPreheader : preheaders other = some outside := isPreheader
    by_cases isLoop : other = id
    · rw [isLoop] at isPreheader ⊢
      rw [show preheaders id = _ from Function.update_self _ _ _, same.isGraph, isGraph]
        at isPreheader
      cases found : findPreheader graph.analyzed (table.loop id) with
      | none =>
        rw [found] at isPreheader
        exact finishing.preheader id outside isPreheader
      | some preheader =>
        rw [found] at isPreheader
        cases isPreheader
        have onlyOutside := findPreheader_spec found
        rw [IsOnlyOutside, same.header, same.blocks] at onlyOutside
        exact onlyOutside
    · rw [show preheaders other = _ from Function.update_of_ne isLoop _ _] at isPreheader
      exact finishing.preheader other outside isPreheader
  · intro levels areLevels
    have placed := finishing.placed levels areLevels
    have ⟨isLevel, isDeepened⟩ := spec levels (areLevels.congr same) placed.known
    apply placed.enter
    · intro other
      by_cases isLoop : other = id
      · rw [isLoop, Function.update_self]
        exact Or.inr isLevel
      · rw [Function.update_of_ne isLoop]
        exact isDeepened other
    · rw [Function.update_self, isLevel]
    · intro block
      rw [mem_iterate, isGraph, length_analyzed]
      exact ⟨And.right, fun inside => ⟨bounded id inRange block inside, inside⟩⟩

/-- The last loop of `LoopInfoBuild`. -/
theorem exists_finishLoops (isGraph : base.toGenerator = graph.analyzed)
    (parented : base.Parented) (unplaced : base.Unplaced)
    (bounded : ∀ id < base.numLoops, ∀ block ∈ base.blocksOf id, block < graph.size)
    (enough : graph.size ≤ fuel) :
    ∃ table, (List.range base.numLoops).foldlM (LoopTable.finishLoop fuel) base = some table ∧
      Finishing graph base (List.range base.numLoops) table := by
  apply exists_foldlM (Finishing graph base)
  · intro front item back state split finishing
    have inRange : item < base.numLoops := by
      rw [← List.mem_range, split]
      exact List.mem_append_right _ List.mem_cons_self
    exact finishing.finishLoop isGraph parented bounded inRange enough
  · refine ⟨.refl base, ?_, ?_⟩
    · intro id outside isPreheader
      rw [preheaderOf, unplaced.preheader] at isPreheader
      cases isPreheader
    · intro levels _
      constructor
      · intro id deep
        rw [depthOf, unplaced.depth] at deep
        exact absurd deep (Nat.lt_irrefl 1)
      · intro id inside
        exact absurd inside List.not_mem_nil
      · intro block id isInner
        rw [unplaced.innermostLoop] at isInner
        cases isInner
      · intro block _
        exact ⟨unplaced.loopNesting block, fun id inside => absurd inside List.not_mem_nil⟩
      · intro block id isInner
        rw [unplaced.innermostLoop] at isInner
        cases isInner

end LoopTable

end DaveCC.Optimization
