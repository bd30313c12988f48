import DaveCC.Backend.IREditing

/-!
# The run of instructions of a block

A block's ends delimit the run of the instructions that name the block. An
instruction that leaves the list or enters it beside another one changes the ends
of its block alone.
-/

namespace DaveCC.Backend

open DaveCC.Container

/-- The instructions of the list that name the block are one run, and the span holds
its first and its last one. -/
def CodeSpan.Delimits (span : CodeSpan) (order : List NodeId)
    (owner : NodeId → Option BlockId) (block : BlockId) : Prop :=
  ∃ before run after, order = before ++ run ++ after ∧
    (∀ id ∈ order, owner id = some block ↔ id ∈ run) ∧
    span.code = run.head? ∧ span.endCode = run.getLast?

/-- The same ends read from the other side. -/
def CodeSpan.mirror (span : CodeSpan) : CodeSpan where
  code := span.endCode
  endCode := span.code

/-- The ends after an instruction is put before the first one. -/
def CodeSpan.extendBefore (span : CodeSpan) (inst pos : NodeId) : CodeSpan :=
  if span.code = some pos then { span with code := some inst } else span

/-- The ends after an instruction is put after the last one. -/
def CodeSpan.extendAfter (span : CodeSpan) (inst pos : NodeId) : CodeSpan :=
  if span.endCode = some pos then { span with endCode := some inst } else span

theorem CodeSpan.mirror_extendBefore (span : CodeSpan) (inst pos : NodeId) :
    (span.mirror.extendBefore inst pos).mirror = span.extendAfter inst pos := by
  by_cases last : span.endCode = some pos
  · simp [mirror, extendBefore, extendAfter, last]
  · simp [mirror, extendBefore, extendAfter, last]

variable {span : CodeSpan} {order front back : List NodeId}
  {owner newOwner : NodeId → Option BlockId} {block : BlockId} {inst pos : NodeId}

/-- An instruction stands before a run, in it, or after it. -/
theorem run_cases {before run after : List NodeId}
    (split : before ++ run ++ after = front ++ inst :: back) :
    (∃ middle, before = front ++ inst :: middle ∧ back = middle ++ run ++ after) ∨
      (∃ left right, run = left ++ inst :: right ∧ front = before ++ left ∧ back = right ++ after) ∨
      ∃ middle, after = middle ++ inst :: back ∧ front = before ++ run ++ middle := by
  rw [List.append_assoc] at split
  rcases LinkedList.append_cases split with ⟨middle, beforeEq, backEq⟩ | ⟨rest, tail, frontEq⟩
  · exact .inl ⟨middle, beforeEq, by rw [backEq, List.append_assoc]⟩
  · rcases LinkedList.append_cases tail with ⟨middle, runEq, backEq⟩ | ⟨middle, afterEq, restEq⟩
    · exact .inr (.inl ⟨rest, middle, runEq, frontEq, backEq⟩)
    · exact .inr (.inr ⟨middle, afterEq, by rw [frontEq, restEq, List.append_assoc]⟩)

namespace CodeSpan.Delimits

section

variable (delimits : span.Delimits order owner block)

include delimits

theorem mem_of_code (code : span.code = some inst) : inst ∈ order ∧ owner inst = some block := by
  obtain ⟨before, run, after, rfl, members, codeEq, -⟩ := delimits
  have inRun : inst ∈ run := List.mem_of_head? (codeEq.symm.trans code)
  have listed : inst ∈ before ++ run ++ after := by simp [inRun]
  exact ⟨listed, (members inst listed).mpr inRun⟩

theorem mirror : span.mirror.Delimits order.reverse owner block := by
  obtain ⟨before, run, after, rfl, members, codeEq, endEq⟩ := delimits
  refine ⟨after.reverse, run.reverse, before.reverse, by simp, ?_, ?_, ?_⟩
  · intro id listed
    rw [List.mem_reverse] at listed ⊢
    exact members id listed
  · rw [List.head?_reverse]
    exact endEq
  · rw [List.getLast?_reverse]
    exact codeEq

theorem mem_of_endCode (endCode : span.endCode = some inst) :
    inst ∈ order ∧ owner inst = some block := by
  have mirrored : inst ∈ order.reverse ∧ owner inst = some block :=
    delimits.mirror.mem_of_code endCode
  simpa using mirrored

/-- Only the blocks of listed instructions matter. -/
theorem congr (same : ∀ id ∈ order, newOwner id = owner id) :
    span.Delimits order newOwner block := by
  obtain ⟨before, run, after, rfl, members, codeEq, endEq⟩ := delimits
  refine ⟨before, run, after, rfl, ?_, codeEq, endEq⟩
  intro id listed
  rw [same id listed]
  exact members id listed

end

/-- The run of a block when an instruction joins the block before another one. -/
theorem joined {before run after : List NodeId} (fresh : inst ∉ before ++ run ++ after)
    (members : ∀ id ∈ before ++ run ++ after, owner id = some block ↔ id ∈ run)
    (same : ∀ id ∈ before ++ run ++ after, newOwner id = owner id)
    (posMem : pos ∈ before ++ run ++ after) (joins : newOwner inst = owner pos)
    {newOrder newRun : List NodeId}
    (orderMem : ∀ id, id ∈ newOrder ↔ id = inst ∨ id ∈ before ++ run ++ after)
    (runMem : ∀ id, id ∈ newRun ↔ (id = inst ∧ pos ∈ run) ∨ id ∈ run) :
    ∀ id ∈ newOrder, newOwner id = some block ↔ id ∈ newRun := by
  intro id listed
  rw [runMem]
  rcases (orderMem id).mp listed with rfl | old
  · have notInRun : id ∉ run := by
      intro inRun
      exact fresh (by simp [inRun])
    rw [joins, members pos posMem]
    simp [notInRun]
  · have notInst : id ≠ inst := by
      rintro rfl
      exact fresh old
    rw [same id old, members id old]
    simp [notInst]

section

variable (delimits : span.Delimits (front ++ pos :: back) owner block)
  (nodup : (front ++ pos :: back).Nodup) (fresh : inst ∉ front ++ pos :: back)
  (same : ∀ id ∈ front ++ pos :: back, newOwner id = owner id) (joins : newOwner inst = owner pos)

include delimits nodup fresh same joins

/-- An instruction enters the list before another one of its block. -/
theorem insertBefore :
    (span.extendBefore inst pos).Delimits (front ++ inst :: pos :: back) newOwner block := by
  obtain ⟨before, run, after, split, members, codeEq, endEq⟩ := delimits
  have posMem : pos ∈ front ++ pos :: back := by simp
  have keeps : pos ∉ run → span.extendBefore inst pos = span := by
    intro outside
    rw [CodeSpan.extendBefore, if_neg]
    intro code
    exact outside (List.mem_of_head? (codeEq.symm.trans code))
  rcases run_cases split.symm with
    ⟨middle, rfl, rfl⟩ | ⟨left, right, rfl, rfl, rfl⟩ | ⟨middle, rfl, rfl⟩
  · have outside : pos ∉ run := by grind
    rw [keeps outside]
    refine ⟨front ++ inst :: pos :: middle, run, after, by simp, ?_, codeEq, endEq⟩
    rw [split] at fresh members same posMem
    exact joined fresh members same posMem joins (by grind) (by grind)
  · refine ⟨before, left ++ inst :: pos :: right, after, by simp, ?_, ?_, ?_⟩
    · rw [split] at fresh members same posMem
      exact joined fresh members same posMem joins (by grind) (by grind)
    · cases left with
      | nil => simp [CodeSpan.extendBefore, codeEq]
      | cons head rest =>
        have headNe : head ≠ pos := by grind
        simp [CodeSpan.extendBefore, codeEq, headNe]
    · rw [CodeSpan.extendBefore]
      split <;> simp [endEq]
  · have outside : pos ∉ run := by grind
    rw [keeps outside]
    refine ⟨before, run, middle ++ inst :: pos :: back, by simp, ?_, codeEq, endEq⟩
    rw [split] at fresh members same posMem
    exact joined fresh members same posMem joins (by grind) (by grind)

/-- An instruction enters the list after another one of its block. -/
theorem insertAfter :
    (span.extendAfter inst pos).Delimits (front ++ pos :: inst :: back) newOwner block := by
  have reversed : (front ++ pos :: back).reverse = back.reverse ++ pos :: front.reverse := by
    simp
  have mirrored := delimits.mirror
  have nodup' := List.nodup_reverse.mpr nodup
  rw [reversed] at mirrored nodup'
  have fresh' : inst ∉ back.reverse ++ pos :: front.reverse := by
    rwa [← reversed, List.mem_reverse]
  have same' : ∀ id ∈ back.reverse ++ pos :: front.reverse, newOwner id = owner id := by
    intro id listed
    rw [← reversed, List.mem_reverse] at listed
    exact same id listed
  have inserted := mirrored.insertBefore nodup' fresh' same' joins
  have result := inserted.mirror
  rw [CodeSpan.mirror_extendBefore] at result
  simpa using result

end

end CodeSpan.Delimits

/-! ## Leaving a block -/

namespace IRGraph

variable {graph : IRGraph}

theorem leaveSpan_of_apart (code : span.code ≠ some inst) (endCode : span.endCode ≠ some inst) :
    graph.leaveSpan span inst = span := by
  simp only [leaveSpan, if_neg code, if_neg endCode]

theorem replaceSpan_code : (graph.replaceSpan span inst).code =
    if span.code = some inst then graph.code.next inst else span.code := by
  simp only [replaceSpan]
  grind

theorem replaceSpan_endCode : (graph.replaceSpan span inst).endCode =
    if span.endCode = some inst then graph.code.prev inst else span.endCode := by
  simp only [replaceSpan]
  grind

/-- The ends change one by one, save that both are cleared together. -/
theorem leaveSpan_eq : graph.leaveSpan span inst =
    if span.code = some inst ∧ span.endCode = some inst then {}
    else graph.replaceSpan span inst := by
  simp only [leaveSpan, replaceSpan]
  grind

/-- An instruction leaves a list, and the ends of its block are moved. The neighbour is
read of an instruction that is one end of its block and not both. -/
theorem delimits_leaveSpan_of_neighbours
    (delimits : span.Delimits (front ++ inst :: back) owner block)
    (nodup : (front ++ inst :: back).Nodup)
    (prevEq : span.endCode = some inst → span.code ≠ some inst →
      graph.code.prev inst = front.getLast?)
    (nextEq : span.code = some inst → span.endCode ≠ some inst →
      graph.code.next inst = back.head?) :
    (graph.leaveSpan span inst).Delimits (front ++ back) owner block := by
  obtain ⟨before, run, after, split, members, codeEq, endEq⟩ := delimits
  have keeps : inst ∉ run → graph.leaveSpan span inst = span := by
    intro outside
    apply leaveSpan_of_apart
    · intro code
      exact outside (List.mem_of_head? (codeEq.symm.trans code))
    · intro endCode
      exact outside (List.mem_of_getLast? (endEq.symm.trans endCode))
  rcases run_cases split.symm with
    ⟨middle, rfl, rfl⟩ | ⟨left, right, rfl, rfl, rfl⟩ | ⟨middle, rfl, rfl⟩
  · rw [keeps (by grind)]
    exact ⟨front ++ middle, run, after, by simp, by grind, codeEq, endEq⟩
  · refine ⟨before, left ++ right, after, by simp, by grind, ?_⟩
    rw [leaveSpan_eq]
    cases left with
    | nil =>
      cases right with
      | nil => simp [codeEq, endEq]
      | cons head rest =>
        have lastNe : span.endCode ≠ some inst := by
          intro last
          grind
        have isFirst : span.code = some inst := codeEq
        rw [if_neg (by simp [lastNe]), replaceSpan_code, replaceSpan_endCode,
          if_pos isFirst, if_neg lastNe, nextEq isFirst lastNe, endEq]
        simp [List.getLast?_cons_cons]
    | cons first rest =>
      have firstNe : span.code ≠ some inst := by
        grind
      rw [if_neg (by simp [firstNe]), replaceSpan_code, replaceSpan_endCode, if_neg firstNe, codeEq]
      cases right with
      | nil =>
        have isLast : span.endCode = some inst := by
          rw [endEq]
          exact List.getLast?_concat
        rw [if_pos isLast, prevEq isLast firstNe, List.getLast?_append_of_ne_nil _ (by simp)]
        simp
      | cons head tail =>
        have lastNe : span.endCode ≠ some inst := by
          intro last
          grind
        rw [if_neg lastNe, endEq, List.getLast?_append_of_ne_nil _ (by simp),
          List.getLast?_append_of_ne_nil _ (by simp), List.getLast?_cons_cons]
        simp
  · rw [keeps (by grind)]
    exact ⟨before, run, middle ++ back, by simp, by grind, codeEq, endEq⟩

theorem delimits_leaveSpan (delimits : span.Delimits (front ++ inst :: back) owner block)
    (represents : graph.code.Represents (front ++ inst :: back)) :
    (graph.leaveSpan span inst).Delimits (front ++ back) owner block := by
  obtain ⟨prevEq, nextEq⟩ := represents.neighbours
  exact delimits_leaveSpan_of_neighbours delimits represents.nodup
    (fun _ _ => prevEq) (fun _ _ => nextEq)

/-- Ends that were moved one by one are left as they are, and they are where leaving
puts them unless the instruction was both of them beside other instructions. -/
theorem leaveSpan_replaceSpan (represents : graph.code.Represents (front ++ inst :: back))
    (several : span.code = some inst → span.endCode = some inst → front = [] ∧ back = []) :
    graph.leaveSpan (graph.replaceSpan span inst) inst = graph.leaveSpan span inst := by
  obtain ⟨prevEq, nextEq⟩ := represents.neighbours
  have nodup := represents.nodup
  have nextNe : graph.code.next inst ≠ some inst := by
    rw [nextEq]
    intro same
    have := List.mem_of_head? same
    grind
  have codeNe : (graph.replaceSpan span inst).code ≠ some inst := by
    rw [replaceSpan_code]
    grind
  have endNe : (graph.replaceSpan span inst).endCode ≠ some inst := by
    rw [replaceSpan_endCode]
    grind
  rw [leaveSpan_of_apart codeNe endNe, leaveSpan_eq]
  split
  · next both =>
      obtain ⟨rfl, rfl⟩ := several both.1 both.2
      have codeEq : (graph.replaceSpan span inst).code = none := by
        rw [replaceSpan_code, if_pos both.1, nextEq]
        rfl
      have endEq : (graph.replaceSpan span inst).endCode = none := by
        rw [replaceSpan_endCode, if_pos both.2, prevEq]
        rfl
      cases replaced : graph.replaceSpan span inst
      simp_all
  · rfl

end IRGraph

end DaveCC.Backend
