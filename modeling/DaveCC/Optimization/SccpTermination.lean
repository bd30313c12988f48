import DaveCC.Optimization.SccpFixedPoint
import Mathlib.Algebra.Order.BigOperators.Group.Finset
import Mathlib.Data.Finset.Union

/-!
# The analysis ends

A value moves up the lattice at most twice and an edge is marked at most once, so `Analyze`
comes to a pass that changes nothing.
-/

namespace DaveCC.Optimization.Sccp

open DaveCC.Backend DaveCC.Loop

def SCCPValue.height : SCCPValue → ℕ
  | undefined => 2
  | constant _ => 1
  | overdefined => 0

/-- The edges that the analysis can mark. -/
def edgesOf (gen : Generator) : Finset (BlockId × BlockId) :=
  (Finset.range gen.basicBlocks.length).biUnion fun block =>
    ((gen.block block).outEdges.map (block, ·)).toFinset

namespace SCCPContext

/-- How often the analysis can still change the context, and the mark of its last change. -/
def work (context : SCCPContext) : ℕ :=
  ∑ id ∈ Finset.range context.valueCount, (context.values id).height +
    (edgesOf context.gen \ context.executableEdges).card + if context.changed then 1 else 0

/-- A context that the analysis comes to. -/
structure Within (gen : Generator) (bound : ℕ) (context : SCCPContext) : Prop where
  gen : context.gen = gen
  work : context.work ≤ bound

variable {gen : Generator} {bound : ℕ} {context : SCCPContext} {id : NodeId}

theorem work_le (context : SCCPContext) :
    context.work ≤ 2 * context.valueCount + (edgesOf context.gen).card + 1 := by
  have sum := Finset.sum_le_card_nsmul (Finset.range context.valueCount)
    (fun id => (context.values id).height) 2 fun id _ => by
      cases context.values id <;> simp [SCCPValue.height]
  rw [Finset.card_range, Nat.nsmul_eq_mul] at sum
  have edges : (edgesOf context.gen \ context.executableEdges).card ≤ _ :=
    Finset.card_le_card Finset.sdiff_subset
  unfold work
  split <;> omega

theorem Within.update {value : SCCPValue} (within : Within gen bound context)
    (inRange : id < context.valueCount) (lower : value.height < (context.values id).height) :
    Within gen bound
      { context with values := Function.update context.values id value, changed := true } := by
  have fewer : ∑ other ∈ Finset.range context.valueCount,
      (Function.update context.values id value other).height <
        ∑ other ∈ Finset.range context.valueCount, (context.values other).height := by
    refine Finset.sum_lt_sum (fun other _ => ?_)
      ⟨id, Finset.mem_range.mpr inRange, by rwa [Function.update_self]⟩
    by_cases same : other = id
    · rw [same, Function.update_self]
      exact lower.le
    · rw [Function.update_of_ne same]
  have before := within.work
  refine ⟨within.gen, ?_⟩
  simp only [SCCPContext.work, if_true] at before ⊢
  omega

theorem Within.updateValue (within : Within gen bound context) (id : NodeId)
    (incoming : SCCPValue) : Within gen bound (context.updateValue id incoming) := by
  unfold SCCPContext.updateValue
  split_ifs with inRange
  · split
    · exact within
    · exact within
    · rename_i isUndefined defined
      refine within.update inRange (isUndefined ▸ ?_)
      unfold SCCPValue.height
      split <;> simp_all
    · rename_i isConstant
      exact within.update inRange (by simp [isConstant, SCCPValue.height])
    · rename_i isConstant
      split_ifs
      · exact within
      · exact within.update inRange (by simp [isConstant, SCCPValue.height])
  · exact within

theorem Within.markEdgeExecutable {source target : BlockId} (within : Within gen bound context)
    (edge : (source, target) ∈ edgesOf gen) :
    Within gen bound (context.markEdgeExecutable source target) := by
  unfold SCCPContext.markEdgeExecutable edgeIsExecutable
  split_ifs with marked
  · exact within
  · have unmarked := Finset.mem_sdiff.mpr
      ⟨within.gen ▸ edge, of_decide_eq_false (Bool.eq_false_iff.mpr marked)⟩
    have fewer := Finset.card_erase_lt_of_mem unmarked
    have before := within.work
    refine ⟨within.gen, ?_⟩
    simp only [SCCPContext.work, if_true, Finset.sdiff_insert] at before ⊢
    omega

theorem Within.markSuccessors {id : BlockId} (within : Within gen bound context)
    (inRange : id < gen.basicBlocks.length) : Within gen bound (context.markSuccessors id) := by
  have marks {targets : List BlockId} (subset : targets ⊆ (context.gen.block id).outEdges) :
      Within gen bound (context.markEdges id targets) := by
    refine List.foldlRecOn targets _ within fun other inner target member => ?_
    exact inner.markEdgeExecutable (Finset.mem_biUnion.mpr ⟨id, Finset.mem_range.mpr inRange,
      List.mem_toFinset.mpr (List.mem_map_of_mem (within.gen ▸ subset member))⟩)
  unfold SCCPContext.markSuccessors
  dsimp only
  split
  · exact within
  · split
    · split_ifs
      · exact marks (List.Subset.refl _)
      · split
        · exact within
        · exact marks (List.Subset.refl _)
        · exact marks (List.filter_subset_self _)
    · exact marks (List.Subset.refl _)

variable [Compiler]

/-- An evaluation updates values one at a time. -/
theorem Within.evaluateInstruction (within : Within gen bound context) (id : NodeId) :
    Within gen bound (context.evaluateInstruction id) := by
  have result {context : SCCPContext} (within : Within gen bound context) :
      Within gen bound (context.evaluateResult id) := by
    unfold evaluateResult
    dsimp only
    repeat' split
    all_goals first | exact within | exact within.updateValue ..
  unfold SCCPContext.evaluateInstruction
  dsimp only
  split
  · exact within.updateValue ..
  · split
    · exact within.updateValue ..
    · apply result
      unfold evaluateDefinition
      dsimp only
      repeat' split
      all_goals first | exact within | exact within.updateValue ..

theorem Within.analyzePass (within : Within gen bound { context with changed := false }) :
    Within gen bound context.analyzePass := by
  refine List.foldlRecOn _ _ within fun other inner id member => ?_
  unfold analyzeBlock
  split_ifs
  · have evaluated := List.foldlRecOn (other.gen.block id).instructions _ inner
      fun _ within inst _ => within.evaluateInstruction inst
    exact evaluated.markSuccessors (within.gen ▸ List.mem_range.mp member)
  · exact inner

/-- `Analyze` ends in a closed context after at most two passes for each value and one for each
edge. -/
theorem analyze_terminates (context : SCCPContext) : ∃ final,
    context.analyze (2 * context.valueCount + (edgesOf context.gen).card + 1) = some final ∧
      Closed final := by
  have passes (context : SCCPContext) (_ : True) (continues : context.changed = true) :
      ∃ next, some context.analyzePass = some next ∧ True ∧ next.work < context.work := by
    have fewer : ({ context with changed := false } : SCCPContext).work < context.work := by
      simp [work, continues]
    exact ⟨_, rfl, trivial, (Within.analyzePass ⟨rfl, le_refl _⟩).work.trans_lt fewer⟩
  obtain ⟨final, returns, -, stops⟩ := exists_runWhile (fun _ => True) work passes trivial (work_le
    { context with
      executableBlocks := insert context.gen.entryBlock context.executableBlocks
      changed := true })
  exact ⟨final, returns, (progress_of_analyze returns).1.closed stops⟩

end SCCPContext

end DaveCC.Optimization.Sccp
