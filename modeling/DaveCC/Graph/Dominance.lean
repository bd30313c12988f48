import Mathlib.Data.List.Basic
import Mathlib.Logic.Relation

/-!
# Walks and dominance

Dominance in a directed graph with one entry, over an arbitrary type of nodes.
A node dominates another when it lies on every walk from the entry to it.
-/

namespace DaveCC.Graph

variable {Node : Type*}

/-- A walk from `source`, with the nodes it visits, the last one first. -/
inductive Walk (edge : Node → Node → Prop) (source : Node) : List Node → Node → Prop where
  | start : Walk edge source [source] source
  | step {visited : List Node} {middle target : Node} :
      Walk edge source visited middle → edge middle target →
      Walk edge source (target :: visited) target

variable {edge : Node → Node → Prop} {entry source middle target : Node}

namespace Walk

variable {visited : List Node}

/-- A walk visits its source. -/
theorem source_mem (walk : Walk edge source visited target) : source ∈ visited := by
  induction walk with
  | start => exact List.mem_singleton_self source
  | step _ _ visitsSource => exact List.mem_cons_of_mem _ visitsSource

/-- A walk visits its target. -/
theorem target_mem (walk : Walk edge source visited target) : target ∈ visited := by
  cases walk with
  | start => exact List.mem_singleton_self source
  | step => exact List.mem_cons_self

/-- Two walks that meet make one walk, through the nodes of both. -/
theorem append {front back : List Node} (first : Walk edge source front middle)
    (second : Walk edge middle back target) :
    ∃ visited, Walk edge source visited target ∧
      ∀ node, node ∈ visited ↔ node ∈ front ∨ node ∈ back := by
  induction second with
  | start =>
    refine ⟨front, first, ?_⟩
    intro node
    simp only [List.mem_singleton]
    constructor
    · exact Or.inl
    · rintro (member | rfl)
      · exact member
      · exact first.target_mem
  | @step back middle target _ follows extended =>
    rcases extended with ⟨visited, walk, visits⟩
    refine ⟨target :: visited, .step walk follows, ?_⟩
    intro node
    simp only [List.mem_cons, visits node]
    exact or_left_comm

/-- A walk splits at every node it visits. -/
theorem split {visited : List Node} {node : Node} (walk : Walk edge source visited target)
    (member : node ∈ visited) :
    ∃ front back, Walk edge source front node ∧ Walk edge node back target ∧
      front ⊆ visited ∧ back ⊆ visited := by
  induction walk with
  | start =>
    rw [List.mem_singleton] at member
    subst member
    exact ⟨[node], [node], .start, .start, List.Subset.refl _, List.Subset.refl _⟩
  | @step visited middle target walk follows split =>
    rcases List.mem_cons.mp member with rfl | member
    · refine ⟨node :: visited, [node], .step walk follows, .start, List.Subset.refl _, ?_⟩
      exact List.cons_subset_cons _ (List.nil_subset _)
    · rcases split member with ⟨front, back, first, second, inFront, inBack⟩
      refine ⟨front, target :: back, first, .step second follows, ?_, ?_⟩
      · exact List.subset_cons_of_subset _ inFront
      · exact List.cons_subset_cons _ inBack

/-- A walk that meets a set of nodes has a last node in the set: the rest of the
walk meets the set nowhere else. -/
theorem exists_last (chosen : Node → Prop) (walk : Walk edge source visited target)
    (meets : ∃ node ∈ visited, chosen node) :
    ∃ node back, chosen node ∧ node ∈ visited ∧ Walk edge node back target ∧
      back ⊆ visited ∧ ∀ other ∈ back, chosen other → other = node := by
  induction walk with
  | start =>
    rcases meets with ⟨node, member, isChosen⟩
    rw [List.mem_singleton] at member
    subst member
    refine ⟨node, [node], isChosen, List.mem_singleton_self node, .start, List.Subset.refl _, ?_⟩
    intro other member _
    exact List.mem_singleton.mp member
  | @step visited middle target walk follows last =>
    by_cases targetChosen : chosen target
    · refine ⟨target, [target], targetChosen, List.mem_cons_self, .start,
        List.cons_subset_cons _ (List.nil_subset _), ?_⟩
      intro other member _
      exact List.mem_singleton.mp member
    · rcases meets with ⟨node, member, isChosen⟩
      rcases List.mem_cons.mp member with rfl | member
      · exact absurd isChosen targetChosen
      · rcases last ⟨node, member, isChosen⟩ with
          ⟨final, back, finalChosen, finalMember, rest, inBack, alone⟩
        refine ⟨final, target :: back, finalChosen, List.mem_cons_of_mem _ finalMember,
          .step rest follows, List.cons_subset_cons _ inBack, ?_⟩
        intro other member otherChosen
        rcases List.mem_cons.mp member with rfl | member
        · exact absurd otherChosen targetChosen
        · exact alone other member otherChosen

end Walk

/-! ## Reachability and dominance -/

/-- Some walk from the entry arrives at the node. -/
def Reachable (edge : Node → Node → Prop) (entry node : Node) : Prop :=
  ∃ visited, Walk edge entry visited node

/-- The dominator lies on every walk from the entry to a reachable node. -/
def Dominates (edge : Node → Node → Prop) (entry dominator node : Node) : Prop :=
  Reachable edge entry node ∧ ∀ visited, Walk edge entry visited node → dominator ∈ visited

def StrictlyDominates (edge : Node → Node → Prop) (entry dominator node : Node) : Prop :=
  Dominates edge entry dominator node ∧ dominator ≠ node

/-- The strict dominator that every other strict dominator dominates. -/
def ImmediatelyDominates (edge : Node → Node → Prop) (entry dominator node : Node) : Prop :=
  StrictlyDominates edge entry dominator node ∧
    ∀ other, StrictlyDominates edge entry other node → Dominates edge entry other dominator

/-- The node dominates a predecessor of `join` without strictly dominating `join`. -/
def InFrontier (edge : Node → Node → Prop) (entry node join : Node) : Prop :=
  (∃ predecessor, edge predecessor join ∧ Dominates edge entry node predecessor) ∧
    ¬ StrictlyDominates edge entry node join

theorem Reachable.root : Reachable edge entry entry :=
  ⟨[entry], .start⟩

theorem Reachable.step (reached : Reachable edge entry source)
    (follows : edge source target) : Reachable edge entry target := by
  rcases reached with ⟨visited, walk⟩
  exact ⟨target :: visited, .step walk follows⟩

/-- A reachable node other than the entry has a reachable predecessor. -/
theorem Reachable.exists_predecessor (reached : Reachable edge entry target)
    (notEntry : target ≠ entry) :
    ∃ predecessor, edge predecessor target ∧ Reachable edge entry predecessor := by
  rcases reached with ⟨visited, walk⟩
  cases walk with
  | start => exact absurd rfl notEntry
  | step walk follows => exact ⟨_, follows, _, walk⟩

/-- A set that holds the entry and is closed under edges holds every reachable node. -/
theorem Reachable.induct (property : Node → Prop) (start : property entry) (step : ∀ source target,
      Reachable edge entry source → property source → edge source target → property target)
    (reached : Reachable edge entry target) : property target := by
  rcases reached with ⟨visited, walk⟩
  induction walk with
  | start => exact start
  | @step visited middle target walk follows holds =>
    exact step middle target ⟨visited, walk⟩ holds follows

namespace Dominates

variable {dominator other node : Node}

theorem refl (reached : Reachable edge entry node) : Dominates edge entry node node :=
  ⟨reached, fun _ walk => walk.target_mem⟩

/-- A dominator is itself reachable: a walk to the node passes through it. -/
theorem reachable (dominates : Dominates edge entry dominator node) :
    Reachable edge entry dominator := by
  rcases dominates with ⟨⟨visited, walk⟩, everyWalk⟩
  rcases walk.split (everyWalk visited walk) with ⟨front, _, first, _⟩
  exact ⟨front, first⟩

theorem trans (outer : Dominates edge entry dominator other)
    (inner : Dominates edge entry other node) : Dominates edge entry dominator node := by
  refine ⟨inner.1, ?_⟩
  intro visited walk
  rcases walk.split (inner.2 visited walk) with ⟨front, _, first, _, inFront, _⟩
  exact inFront (outer.2 front first)

/-- Dominance passes to a reachable predecessor. -/
theorem of_edge (dominates : Dominates edge entry dominator target)
    (different : dominator ≠ target) (reached : Reachable edge entry source)
    (follows : edge source target) : Dominates edge entry dominator source := by
  refine ⟨reached, ?_⟩
  intro visited walk
  rcases List.mem_cons.mp (dominates.2 _ (.step walk follows)) with same | member
  · exact absurd same different
  · exact member

/-- If a walk from `node` arrives at `target` without the dominator of `target`,
the dominator is already on every walk to `node`. -/
theorem of_walk_avoiding {back : List Node} (dominates : Dominates edge entry dominator target)
    (reached : Reachable edge entry node) (walk : Walk edge node back target)
    (avoids : dominator ∉ back) : Dominates edge entry dominator node := by
  refine ⟨reached, ?_⟩
  intro front first
  rcases first.append walk with ⟨visited, whole, visits⟩
  rcases (visits dominator).mp (dominates.2 visited whole) with member | member
  · exact member
  · exact absurd member avoids

/-- Two dominators of one node are comparable. -/
theorem total (first : Dominates edge entry dominator node)
    (second : Dominates edge entry other node) :
    Dominates edge entry dominator other ∨ Dominates edge entry other dominator := by
  rcases first.1 with ⟨visited, walk⟩
  -- the last of the two on a walk leaves the other one behind
  rcases walk.exists_last (fun node => node = dominator ∨ node = other)
    ⟨dominator, first.2 visited walk, Or.inl rfl⟩ with
    ⟨last, back, isLast, _, rest, _, alone⟩
  by_cases same : dominator = other
  · subst same
    exact Or.inl (Dominates.refl first.reachable)
  · rcases isLast with rfl | rfl
    · right
      refine second.of_walk_avoiding first.reachable rest ?_
      intro member
      exact same (alone other member (Or.inr rfl)).symm
    · left
      refine first.of_walk_avoiding second.reachable rest ?_
      intro member
      exact same (alone dominator member (Or.inl rfl))

/-- Neither of two different nodes that dominate each other is ever visited: the
first visit of one would need an earlier visit of the other. -/
theorem not_mem_of_mutual {visited : List Node} (different : dominator ≠ node)
    (first : Dominates edge entry dominator node) (second : Dominates edge entry node dominator)
    (walk : Walk edge entry visited target) : node ∉ visited ∧ dominator ∉ visited := by
  induction walk with
  | start =>
    simp only [List.mem_singleton]
    constructor
    · rintro rfl
      exact different (List.mem_singleton.mp (first.2 _ .start))
    · rintro rfl
      exact different (List.mem_singleton.mp (second.2 _ .start)).symm
  | @step visited middle target walk follows avoids =>
    simp only [List.mem_cons, not_or]
    refine ⟨⟨?_, avoids.1⟩, ?_, avoids.2⟩
    · rintro rfl
      rcases List.mem_cons.mp (first.2 _ (.step walk follows)) with same | member
      · exact different same
      · exact avoids.2 member
    · rintro rfl
      rcases List.mem_cons.mp (second.2 _ (.step walk follows)) with same | member
      · exact different same.symm
      · exact avoids.1 member

theorem antisymm (first : Dominates edge entry dominator node)
    (second : Dominates edge entry node dominator) : dominator = node := by
  by_contra different
  rcases first.1 with ⟨visited, walk⟩
  exact (not_mem_of_mutual different first second walk).1 walk.target_mem

end Dominates

theorem dominates_entry_iff {dominator : Node} :
    Dominates edge entry dominator entry ↔ dominator = entry := by
  constructor
  · intro dominates
    exact List.mem_singleton.mp (dominates.2 [entry] .start)
  · rintro rfl
    exact Dominates.refl Reachable.root

namespace ImmediatelyDominates

variable {dominator other node : Node}

theorem unique (first : ImmediatelyDominates edge entry dominator node)
    (second : ImmediatelyDominates edge entry other node) : dominator = other :=
  (second.2 dominator first.1).antisymm (first.2 other second.1)

/-- The strict dominators of a node are the dominators of its immediate one. -/
theorem strictlyDominates_iff (immediate : ImmediatelyDominates edge entry dominator node) :
    StrictlyDominates edge entry other node ↔ Dominates edge entry other dominator := by
  constructor
  · exact immediate.2 other
  · intro dominates
    refine ⟨dominates.trans immediate.1.1, ?_⟩
    rintro rfl
    exact immediate.1.2 (immediate.1.1.antisymm dominates)

theorem not_entry : ¬ ImmediatelyDominates edge entry dominator entry := by
  intro immediate
  exact immediate.1.2 (dominates_entry_iff.mp immediate.1.1)

end ImmediatelyDominates

/-- A node with a single reachable predecessor has the predecessor's dominators. -/
theorem dominates_iff_of_single_predecessor {predecessor node dominator : Node}
    (reached : Reachable edge entry predecessor) (follows : edge predecessor node)
    (notEntry : node ≠ entry) (single : ∀ other, edge other node → other = predecessor) :
    Dominates edge entry dominator node ↔
      dominator = node ∨ Dominates edge entry dominator predecessor := by
  constructor
  · intro dominates
    by_cases same : dominator = node
    · exact Or.inl same
    · exact Or.inr (dominates.of_edge same reached follows)
  · rintro (rfl | dominates)
    · exact Dominates.refl (reached.step follows)
    · refine ⟨reached.step follows, ?_⟩
      intro visited walk
      cases walk with
      | start => exact absurd rfl notEntry
      | step walk last =>
        obtain rfl := single _ last
        exact List.mem_cons_of_mem _ (dominates.2 _ walk)

end DaveCC.Graph
