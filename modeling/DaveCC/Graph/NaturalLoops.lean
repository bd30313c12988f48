import DaveCC.Graph.Dominance

/-!
# Natural loops

The loop of a back edge in a graph with one entry: the nodes that arrive at a latch without
passing the header. Two loops with different headers share no node, or one is inside the other.
-/

namespace DaveCC.Graph

variable {Node : Type*}

/-- An edge from a latch to a header that dominates it. -/
def BackEdge (edge : Node → Node → Prop) (entry latch header : Node) : Prop :=
  edge latch header ∧ Dominates edge entry header latch

/-- The target of a back edge. -/
def IsHeader (edge : Node → Node → Prop) (entry header : Node) : Prop :=
  ∃ latch, BackEdge edge entry latch header

/-- Some walk to the target avoids a node. -/
def ReachesAvoiding (edge : Node → Node → Prop) (avoided source target : Node) : Prop :=
  ∃ visited, Walk edge source visited target ∧ avoided ∉ visited

/-- The header, and the nodes that reach a latch without passing it. -/
def InLoop (edge : Node → Node → Prop) (entry header node : Node) : Prop :=
  node = header ∨ ∃ latch, BackEdge edge entry latch header ∧ ReachesAvoiding edge header node latch

/-- The reachable part of a loop. -/
def InNaturalLoop (edge : Node → Node → Prop) (entry header node : Node) : Prop :=
  node = header ∨ (Reachable edge entry node ∧ ∃ latch, BackEdge edge entry latch header ∧
    ReachesAvoiding edge header node latch)

variable {edge : Node → Node → Prop} {entry avoided source middle target header inner node : Node}

namespace ReachesAvoiding

theorem refl (apart : target ≠ avoided) : ReachesAvoiding edge avoided target target :=
  ⟨[target], .start, fun member => apart (List.mem_singleton.mp member).symm⟩

theorem trans (first : ReachesAvoiding edge avoided source middle)
    (second : ReachesAvoiding edge avoided middle target) :
    ReachesAvoiding edge avoided source target := by
  cases first with
  | intro front first =>
    cases second with
    | intro back second =>
      cases first.1.append second.1 with
      | intro visited whole =>
        refine ⟨visited, whole.1, ?_⟩
        intro member
        cases (whole.2 avoided).mp member with
        | inl inFront => exact first.2 inFront
        | inr inBack => exact second.2 inBack

theorem source_ne (reaches : ReachesAvoiding edge avoided source target) : source ≠ avoided := by
  intro same
  cases reaches with
  | intro visited walk => exact walk.2 (same ▸ walk.1.source_mem)

theorem step (reaches : ReachesAvoiding edge avoided source middle) (follows : edge middle target)
    (apart : target ≠ avoided) : ReachesAvoiding edge avoided source target := by
  cases reaches with
  | intro visited walk =>
    refine ⟨target :: visited, walk.1.step follows, ?_⟩
    intro member
    cases List.mem_cons.mp member with
    | inl same => exact apart same.symm
    | inr inside => exact walk.2 inside

/-- A walk that starts with an edge. -/
theorem head (follows : edge source middle) (apart : source ≠ avoided)
    (reaches : ReachesAvoiding edge avoided middle target) :
    ReachesAvoiding edge avoided source target :=
  ((refl apart).step follows reaches.source_ne).trans reaches

/-- The source is the target, or it has a successor. -/
theorem eq_or_edge (reaches : ReachesAvoiding edge avoided source target) :
    source = target ∨ ∃ next, edge source next := by
  cases reaches with
  | intro visited reaches =>
    have walk := reaches.1
    clear reaches
    induction walk with
    | start => exact Or.inl rfl
    | @step _ _ target _ follows ih =>
      cases ih with
      | inl same => exact Or.inr ⟨target, same ▸ follows⟩
      | inr leaves => exact Or.inr leaves

end ReachesAvoiding

/-- A walk to a node that avoids its dominator avoids the strict dominators of that one. -/
theorem reachesAvoiding_outer (above : StrictlyDominates edge entry header inner)
    (dominates : Dominates edge entry inner target)
    (reaches : ReachesAvoiding edge inner source target) :
    ReachesAvoiding edge header source target := by
  cases reaches with
  | intro visited walk =>
    refine ⟨visited, walk.1, ?_⟩
    intro member
    rcases walk.1.split member with ⟨_, back, _, rest, _, inBack⟩
    have backwards : Dominates edge entry inner header :=
      dominates.of_walk_avoiding above.1.reachable rest fun inside => walk.2 (inBack inside)
    exact above.2 (above.1.antisymm backwards)

/-- A node is reached from its dominator without the strict dominators of that one. -/
theorem reachesAvoiding_of_dominates (above : StrictlyDominates edge entry header inner)
    (dominates : Dominates edge entry inner target) : ReachesAvoiding edge header inner target := by
  rcases dominates.1 with ⟨visited, walk⟩
  -- the last of the two on a walk from the entry is the inner one
  rcases walk.exists_last (fun node => node = header ∨ node = inner)
    ⟨inner, dominates.2 visited walk, Or.inr rfl⟩ with ⟨last, back, isLast, _, rest, _, alone⟩
  cases isLast with
  | inl isHeader =>
    rw [isHeader] at rest alone
    have backwards : Dominates edge entry inner header := by
      apply dominates.of_walk_avoiding above.1.reachable rest
      intro inside
      exact above.2 (alone inner inside (Or.inr rfl)).symm
    exact absurd (above.1.antisymm backwards) above.2
  | inr isInner =>
    rw [isInner] at rest alone
    refine ⟨back, rest, ?_⟩
    intro inside
    exact above.2 (alone header inside (Or.inl rfl))

theorem IsHeader.reachable (isHeader : IsHeader edge entry header) :
    Reachable edge entry header := by
  cases isHeader with
  | intro latch back => exact back.2.reachable

theorem InNaturalLoop.inLoop (inside : InNaturalLoop edge entry header node) :
    InLoop edge entry header node := by
  cases inside with
  | inl same => exact Or.inl same
  | inr reaches => exact Or.inr reaches.2

theorem InNaturalLoop.dominates (isHeader : IsHeader edge entry header)
    (inside : InNaturalLoop edge entry header node) : Dominates edge entry header node := by
  cases inside with
  | inl same =>
    rw [same]
    exact Dominates.refl isHeader.reachable
  | inr reaches =>
    rcases reaches with ⟨reached, latch, back, visited, walk, avoids⟩
    exact back.2.of_walk_avoiding reached walk avoids

/-- The loop of an inner header with a node of the outer loop is inside the outer loop. -/
theorem InNaturalLoop.outer (isInner : IsHeader edge entry inner)
    (above : StrictlyDominates edge entry header inner)
    (shared : InNaturalLoop edge entry header node)
    (sharedInner : InNaturalLoop edge entry inner node) {other : Node}
    (inside : InNaturalLoop edge entry inner other) : InNaturalLoop edge entry header other := by
  have dominates := sharedInner.dominates isInner
  have fromInner : ∃ latch, BackEdge edge entry latch header ∧
      ReachesAvoiding edge header inner latch := by
    cases shared with
    | inl same =>
      rw [same] at dominates
      exact absurd (above.1.antisymm dominates) above.2
    | inr reaches =>
      rcases reaches.2 with ⟨latch, back, onwards⟩
      exact ⟨latch, back, (reachesAvoiding_of_dominates above dominates).trans onwards⟩
  rcases fromInner with ⟨latch, back, onwards⟩
  cases inside with
  | inl same =>
    rw [same]
    exact Or.inr ⟨isInner.reachable, latch, back, onwards⟩
  | inr reaches =>
    rcases reaches with ⟨reached, innerLatch, innerBack, toLatch⟩
    have toInner : ReachesAvoiding edge header other inner :=
      (reachesAvoiding_outer above innerBack.2 toLatch).step innerBack.1 above.2.symm
    exact Or.inr ⟨reached, latch, back, toInner.trans onwards⟩

/-- Natural loops that share a node are nested, and the outer header is not in the inner
loop. -/
theorem naturalLoops_nested (isHeader : IsHeader edge entry header)
    (isInner : IsHeader edge entry inner) (apart : header ≠ inner)
    (shared : InNaturalLoop edge entry header node)
    (sharedInner : InNaturalLoop edge entry inner node) :
    ((∀ other, InNaturalLoop edge entry inner other → InNaturalLoop edge entry header other) ∧
        ¬ InNaturalLoop edge entry inner header) ∨
      ((∀ other, InNaturalLoop edge entry header other → InNaturalLoop edge entry inner other) ∧
        ¬ InNaturalLoop edge entry header inner) := by
  cases (shared.dominates isHeader).total (sharedInner.dominates isInner) with
  | inl above =>
    refine Or.inl ⟨fun other => shared.outer isInner ⟨above, apart⟩ sharedInner, ?_⟩
    intro inside
    exact apart (above.antisymm (inside.dominates isInner))
  | inr above =>
    refine Or.inr ⟨fun other => sharedInner.outer isHeader ⟨above, apart.symm⟩ shared, ?_⟩
    intro inside
    exact apart ((inside.dominates isHeader).antisymm above)

end DaveCC.Graph
