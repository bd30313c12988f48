import DaveCC.Backend.ControlFlowGraph
import DaveCC.Graph.DependencyOrder
import DaveCC.Graph.ActionGraph

/-!
# The order of instructions

A run of a function goes through the instructions of a block in their order, and over an
edge of the block when they are done. In a place of a run, the instruction that comes next
is the first one that is left of the block.
-/

namespace DaveCC.Backend

open DaveCC.Container DaveCC.Graph

/-- A block and the instructions that are left of it. -/
abbrev Place := BlockId × List NodeId

/-- `CreateBasicBlocks` puts an instruction in one place of one block. -/
structure Placed (gen : Generator) : Prop where
  nodup : ∀ block, (gen.block block).instructions.Nodup
  once : ∀ first second id, id ∈ (gen.block first).instructions →
    id ∈ (gen.block second).instructions → first = second

namespace Generator

/-- The places of a function. -/
def places (gen : Generator) : ActionGraph Place NodeId where
  edge source target :=
    match source.2 with
    | [] => gen.Edge source.1 target.1 ∧ target.2 = (gen.block target.1).instructions
    | _ :: rest => target = (source.1, rest)
  action place := place.2.head?
  entry := (gen.entryBlock, (gen.block gen.entryBlock).instructions)

variable {gen : Generator} {block : BlockId} {place : Place} {first second avoided : NodeId}
  {rest : List NodeId}

/-- What is left in a place is the end of a block. -/
theorem rest_suffix (reachable : gen.places.Reachable place) :
    place.2 <:+ (gen.block place.1).instructions := by
  induction reachable with
  | refl => exact List.suffix_refl _
  | @tail source target _ follows ih =>
    rcases source with ⟨block, left⟩
    cases left with
    | nil =>
      rw [follows.2]
    | cons id rest =>
      rw [show target = (block, rest) from follows]
      exact (List.suffix_cons _ _).trans ih

/-- The ends of a list without repetitions are told apart by their first elements. -/
theorem eq_of_suffix {whole left right : List NodeId} (nodup : whole.Nodup)
    (isLeft : first :: left <:+ whole) (isRight : first :: right <:+ whole) : left = right := by
  rcases isLeft with ⟨front, split⟩
  rcases isRight with ⟨other, otherSplit⟩
  rw [← split, List.nodup_append, List.nodup_cons] at nodup
  have apart : first ∉ front := by
    intro inFront
    exact nodup.2.2 first inFront first (List.mem_cons_self ..) rfl
  exact ((List.append_cons_inj_of_notMem apart nodup.2.1.1).mp (split.trans otherSplit.symm)).2.2

theorem unambiguous_places (placed : Placed gen) : gen.places.Unambiguous := by
  rintro ⟨block, left⟩ ⟨other, right⟩ id isReached isAlsoReached isNext isAlsoNext
  have isEnd := rest_suffix isReached
  have isOtherEnd := rest_suffix isAlsoReached
  cases left with
  | nil => cases isNext
  | cons _ left =>
    cases right with
    | nil => cases isAlsoNext
    | cons _ right =>
      cases isNext
      cases isAlsoNext
      have sameBlock := placed.once block other id (isEnd.subset (List.mem_cons_self ..))
        (isOtherEnd.subset (List.mem_cons_self ..))
      rw [← sameBlock] at isOtherEnd ⊢
      rw [eq_of_suffix (placed.nodup block) isEnd isOtherEnd]

/-- An instruction dominates those behind it in its block. -/
theorem dominates_of_precedes (placed : Placed gen)
    (precedes : [first, second].Sublist (gen.block block).instructions) :
    gen.places.Dominates first second := by
  have inBlock : first ∈ (gen.block block).instructions := precedes.subset (by simp)
  have follows : second ∈ (gen.block block).instructions := precedes.subset (by simp)
  have nodup := placed.nodup block
  rintro ⟨target, avoids, isNext⟩
  have reachable := ActionGraph.Reachable.of_without avoids
  -- as long as the second one is left of the block, so is the first one
  have remains : target.1 = block → second ∈ target.2 → first ∈ target.2 := by
    clear isNext reachable
    induction avoids with
    | refl =>
      intro isBlock _
      change first ∈ (gen.block gen.entryBlock).instructions
      rw [show gen.entryBlock = block from isBlock]
      exact inBlock
    | @tail source target _ step ih =>
      rcases source with ⟨current, left⟩
      intro isBlock isLeft
      cases left with
      | nil =>
        rw [step.1.2, isBlock]
        exact inBlock
      | cons id rest =>
        have isTarget : target = (current, rest) := step.1
        rw [isTarget] at isBlock isLeft ⊢
        cases ih isBlock (List.mem_cons_of_mem _ isLeft) with
        | head => exact absurd rfl step.2
        | tail _ inRest => exact inRest
  rcases target with ⟨current, left⟩
  cases left with
  | nil => cases isNext
  | cons _ left =>
    cases isNext
    have isEnd := rest_suffix reachable
    have isBlock : current = block :=
      placed.once current block second (isEnd.subset (List.mem_cons_self ..)) follows
    rw [isBlock] at isEnd
    have isLeft := remains isBlock (List.mem_cons_self ..)
    rcases isEnd with ⟨front, split⟩
    rw [← split] at nodup precedes
    have inFront := mem_front_of_pair_sublist nodup precedes
    exact (List.nodup_append.mp nodup).2.2 first inFront first isLeft rfl

/-- Inside of a block, a way leads to every instruction that is left. -/
theorem leads_of_mem (isLeft : second ∈ rest) (apart : avoided ∉ rest) :
    gen.places.Leads avoided (block, rest) second := by
  induction rest with
  | nil => cases isLeft
  | cons id rest ih =>
    by_cases isNext : id = second
    · exact ⟨(block, id :: rest), .refl, by rw [isNext]; rfl⟩
    · have onwards := ih (List.mem_of_ne_of_mem (Ne.symm isNext) isLeft)
        (fun inRest => apart (List.mem_cons_of_mem _ inRest))
      have follows : gen.places.edge (block, id :: rest) (block, rest) := rfl
      refine ActionGraph.Leads.step follows ?_ onwards
      intro isAvoided
      apply apart
      rw [← Option.some.inj isAvoided]
      exact List.mem_cons_self ..

end Generator

end DaveCC.Backend
