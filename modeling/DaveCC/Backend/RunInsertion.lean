import DaveCC.Backend.BlockSpans

/-!
# Runs when an instruction enters beside them

An instruction that enters the list without a block joins the run it is put into, and no
run when it is put between two of them. The ends of every run stay as they are.
-/

namespace DaveCC.Backend

open DaveCC.Container

/-- The run that both neighbours of a place belong to. -/
def ownerBetween (owner : NodeId → Option BlockId) (front back : List NodeId) :
    Option BlockId :=
  if front.getLast?.bind owner = back.head?.bind owner then front.getLast?.bind owner else none

variable {span : CodeSpan} {order front back : List NodeId} {owner : NodeId → Option BlockId}
  {block : BlockId} {inst : NodeId}

theorem exists_of_ownerBetween (between : ownerBetween owner front back = some block) :
    (∃ before ∈ front, owner before = some block) ∧ ∃ after ∈ back, owner after = some block := by
  rw [ownerBetween] at between
  split_ifs at between with same
  have after := same.symm.trans between
  obtain ⟨last, isLast, owned⟩ := Option.bind_eq_some_iff.mp between
  obtain ⟨head, isHead, ownedToo⟩ := Option.bind_eq_some_iff.mp after
  exact ⟨⟨last, List.mem_of_getLast? isLast, owned⟩, head, List.mem_of_head? isHead, ownedToo⟩

/-- A place between two parts of a list stands before a run, in it, or after it. -/
theorem place_cases {before run after : List NodeId}
    (split : front ++ back = before ++ run ++ after) :
    (∃ middle, before = front ++ middle ∧ back = middle ++ run ++ after) ∨
      (∃ left right, run = left ++ right ∧ front = before ++ left ∧ back = right ++ after) ∨
      ∃ middle, after = middle ++ back ∧ front = before ++ run ++ middle := by
  rcases List.append_eq_append_iff.mp split with ⟨middle, whole, backEq⟩ | ⟨middle, frontEq, afterEq⟩
  · rcases List.append_eq_append_iff.mp whole with ⟨right, frontEq, runEq⟩ | ⟨left, beforeEq, middleEq⟩
    · exact .inr (.inl ⟨right, middle, runEq, frontEq, backEq⟩)
    · exact .inl ⟨left, beforeEq, by rw [backEq, middleEq]⟩
  · exact .inr (.inr ⟨middle, afterEq, frontEq⟩)

namespace CodeSpan.Delimits

/-- An instruction enters the list, and the ends of the blocks stay. -/
theorem insertApart (delimits : span.Delimits (front ++ back) owner block)
    (nodup : (front ++ back).Nodup) (fresh : inst ∉ front ++ back) :
    span.Delimits (front ++ inst :: back)
      (Function.update owner inst (ownerBetween owner front back)) block := by
  obtain ⟨before, run, after, split, members, codeEq, endEq⟩ := delimits
  have old : ∀ id ∈ front ++ back,
      Function.update owner inst (ownerBetween owner front back) id = some block ↔ id ∈ run := by
    intro id listed
    have apart : id ≠ inst := by
      rintro rfl
      exact fresh listed
    rw [Function.update_of_ne apart]
    exact members id listed
  -- Away from the inside of the run, the place has a neighbour outside it.
  have outside (front' back' : List NodeId)
      (newSplit : front ++ inst :: back = front' ++ run ++ back')
      (notBetween : (∀ id ∈ front, id ∉ run) ∨ ∀ id ∈ back, id ∉ run) :
      span.Delimits (front ++ inst :: back)
        (Function.update owner inst (ownerBetween owner front back)) block := by
    refine ⟨front', run, back', newSplit, ?_, codeEq, endEq⟩
    intro id listed
    by_cases here : id = inst
    · subst here
      have notInRun : id ∉ run := by
        intro inRun
        exact fresh (by rw [split]; simp [inRun])
      rw [Function.update_self]
      refine ⟨fun between => ?_, fun inRun => absurd inRun notInRun⟩
      obtain ⟨⟨first, firstMem, firstOwned⟩, second, secondMem, secondOwned⟩ :=
        exists_of_ownerBetween between
      rcases notBetween with frontOut | backOut
      · exact absurd ((members first (List.mem_append_left _ firstMem)).mp firstOwned)
          (frontOut first firstMem)
      · exact absurd ((members second (List.mem_append_right _ secondMem)).mp secondOwned)
          (backOut second secondMem)
    · apply old
      simpa [here] using listed
  rcases place_cases split with
    ⟨middle, rfl, rfl⟩ | ⟨left, right, rfl, rfl, rfl⟩ | ⟨middle, rfl, rfl⟩
  · exact outside (front ++ inst :: middle) after (by simp) (.inl (by grind))
  · cases left using List.reverseRecOn with
    | nil => exact outside (before ++ [inst]) after (by simp) (.inl (by grind))
    | append_singleton left last =>
      cases right with
      | nil => exact outside before (inst :: after) (by simp) (.inr (by grind))
      | cons head right =>
        have lastOwned : owner last = some block := (members last (by simp)).mpr (by simp)
        have headOwned : owner head = some block := (members head (by simp)).mpr (by simp)
        have between : ownerBetween owner (before ++ (left ++ [last])) (head :: right ++ after) =
            some block := by
          rw [ownerBetween, ← List.append_assoc, List.getLast?_concat]
          simp [lastOwned, headOwned]
        refine ⟨before, left ++ [last] ++ inst :: head :: right, after, by simp, ?_, ?_, ?_⟩
        · intro id listed
          by_cases here : id = inst
          · rw [here, Function.update_self, between]
            simp
          · rw [old id (by simpa [here] using listed)]
            simp [here]
        · rw [codeEq]
          cases left <;> simp
        · rw [endEq]
          simp [List.getLast?_append]
  · exact outside before (middle ++ inst :: back) (by simp) (.inr (by grind))

end CodeSpan.Delimits

/-! ## One run -/

/-- The span holds the first and the last instruction of a run of the list. -/
def CodeSpan.Within (span : CodeSpan) (order : List NodeId) : Prop :=
  ∃ owner, span.Delimits order owner 0

namespace CodeSpan.Within

theorem of_run {before run after : List NodeId} (code : span.code = run.head?)
    (endCode : span.endCode = run.getLast?) : span.Within (before ++ run ++ after) := by
  refine ⟨fun id => if id ∈ run then some 0 else none, before, run, after, rfl, ?_, code, endCode⟩
  intro id _
  simp

theorem insertApart (within : span.Within (front ++ back)) (nodup : (front ++ back).Nodup)
    (fresh : inst ∉ front ++ back) : span.Within (front ++ inst :: back) := by
  obtain ⟨owner, delimits⟩ := within
  exact ⟨_, delimits.insertApart nodup fresh⟩

end CodeSpan.Within

end DaveCC.Backend

/-!
## Runs while instructions are passed

When several instructions are to leave the list, the ends of their blocks may be moved
before any of them leaves. An end then moves to the neighbour in the list, which is right
unless the neighbour has been passed already.
-/

namespace DaveCC.Backend

open DaveCC.Container

/-- The instructions of a list that have not been passed. -/
def remaining (passed order : List NodeId) : List NodeId :=
  order.filter (· ∉ passed)

/-- The block's ends delimit a run with an instruction in it. -/
def CodeSpan.RunAround (span : CodeSpan) (order left : List NodeId) (inst : NodeId)
    (right : List NodeId) : Prop :=
  ∃ before after, order = before ++ (left ++ inst :: right) ++ after ∧
    span.code = (left ++ inst :: right).head? ∧
    span.endCode = (left ++ inst :: right).getLast?

/-- When all of one side has been passed and the other side has not, the nearest
instruction of the other side has not. -/
def NeighbourKept (passed near far : List NodeId) : Prop :=
  (∀ id ∈ near, id ∈ passed) → (∃ id ∈ far, id ∉ passed) →
    ∀ next, far.head? = some next → next ∉ passed

/-- Whenever an instruction leaves that is an end of what is left of its block, the next
instruction of the block has not left before it. -/
def EndsKept (spans : BlockId → CodeSpan) (order gone : List NodeId) : Prop :=
  ∀ passed inst later block left right, gone = passed ++ inst :: later →
    (spans block).RunAround order left inst right →
      NeighbourKept passed left right ∧ NeighbourKept passed right.reverse left.reverse

variable {span start : CodeSpan} {order front back passed : List NodeId}
  {owner : NodeId → Option BlockId} {block : BlockId} {inst id : NodeId}

theorem mem_remaining : id ∈ remaining passed order ↔ id ∈ order ∧ id ∉ passed := by
  simp [remaining]

theorem remaining_append :
    remaining passed (front ++ back) = remaining passed front ++ remaining passed back :=
  List.filter_append front back

theorem remaining_cons (fresh : inst ∉ passed) :
    remaining passed (inst :: back) = inst :: remaining passed back := by
  simp [remaining, fresh]

/-- Only which instructions have been passed matters. -/
theorem remaining_congr {gone : List NodeId} (same : ∀ id, id ∈ passed ↔ id ∈ gone) :
    remaining passed order = remaining gone order := by
  apply List.filter_congr
  intro id _
  simp [same id]

/-- One more instruction is passed. -/
theorem remaining_concat (nodup : (front ++ inst :: back).Nodup) :
    remaining (passed ++ [inst]) (front ++ inst :: back) =
      remaining passed front ++ remaining passed back := by
  have apart : ∀ id ∈ front ++ back, id ≠ inst := by grind
  have same (part : List NodeId) (within : ∀ id ∈ part, id ∈ front ++ back) :
      remaining (passed ++ [inst]) part = remaining passed part := by
    apply List.filter_congr
    intro id member
    simp [apart id (within id member)]
  have itself : remaining (passed ++ [inst]) [inst] = [] := by
    simp [remaining]
  rw [show front ++ inst :: back = front ++ ([inst] ++ back) from rfl, remaining_append,
    remaining_append, itself, same front fun _ => List.mem_append_left back,
    same back fun _ => List.mem_append_right front, List.nil_append]

theorem remaining_nil : remaining [] order = order := by
  simp [remaining]

theorem remaining_reverse : remaining passed order.reverse = (remaining passed order).reverse :=
  List.filter_reverse

section

variable (nodup : (front ++ inst :: back).Nodup) (fresh : inst ∉ passed)
  (started : start.Delimits (front ++ inst :: back) owner block)
  (delimits : span.Delimits (remaining passed front ++ inst :: remaining passed back) owner block)

include nodup fresh started delimits

/-- The instruction after the first one of a run is the next one in the list. -/
theorem head?_remaining (first : span.code = some inst) (notLast : span.endCode ≠ some inst)
    (kept : ∀ left right, start.RunAround (front ++ inst :: back) left inst right →
      NeighbourKept passed left right) : back.head? = (remaining passed back).head? := by
  obtain ⟨before, run, after, split, members, codeEq, endEq⟩ := delimits
  obtain ⟨startBefore, startRun, startAfter, startSplit, startMembers, startCode, startEnd⟩ :=
    started
  have leftNodup : (remaining passed front ++ inst :: remaining passed back).Nodup := by
    rw [← remaining_cons fresh, ← remaining_append]
    exact nodup.filter _
  obtain ⟨more, rfl⟩ : ∃ more, run = inst :: more :=
    List.head?_eq_some_iff.mp (codeEq.symm.trans first)
  have more_ne : more ≠ [] := by
    rintro rfl
    exact notLast endEq
  -- What is left of the run starts with the instruction.
  have sides : remaining passed front = before ∧ remaining passed back = more ++ after := by
    have equal : remaining passed front ++ inst :: remaining passed back =
        before ++ inst :: (more ++ after) := by simpa using split
    rw [List.append_cons_inj_of_notMem (by grind) (by grind)] at equal
    exact ⟨equal.1, equal.2.2⟩
  rcases run_cases startSplit.symm with
    ⟨middle, rfl, rfl⟩ | ⟨left, right, rfl, rfl, rfl⟩ | ⟨middle, rfl, rfl⟩
  · grind
  · have near : ∀ id ∈ left, id ∈ passed := by
      intro id member
      by_contra unpassed
      have listed : id ∈ remaining passed (startBefore ++ left) := by
        simp [mem_remaining, member, unpassed]
      grind
    have far : ∃ id ∈ right, id ∉ passed := by
      obtain ⟨id, member⟩ := List.exists_mem_of_ne_nil more more_ne
      have listed : id ∈ remaining passed (right ++ startAfter) := by
        rw [sides.2]
        simp [member]
      obtain ⟨inBack, unpassed⟩ := mem_remaining.mp listed
      grind
    have nextKept := kept left right ⟨startBefore, startAfter, startSplit, startCode, startEnd⟩
      near far
    cases right with
    | nil => simp at far
    | cons next others =>
      rw [List.cons_append, remaining_cons (nextKept next rfl)]
      rfl
  · grind

/-- The instruction before the last one of a run is the previous one in the list. -/
theorem getLast?_remaining (last : span.endCode = some inst) (notFirst : span.code ≠ some inst)
      (kept : ∀ left right, start.RunAround (front ++ inst :: back) left inst right → NeighbourKept
      passed right.reverse left.reverse) : front.getLast? = (remaining passed front).getLast? := by
  have reversed : (front ++ inst :: back).reverse = back.reverse ++ inst :: front.reverse := by
    simp
  have nodup' : (back.reverse ++ inst :: front.reverse).Nodup := by
    rw [← reversed]
    exact List.nodup_reverse.mpr nodup
  have started' := started.mirror
  have delimits' := delimits.mirror
  rw [reversed] at started'
  have shape : (remaining passed front ++ inst :: remaining passed back).reverse =
      remaining passed back.reverse ++ inst :: remaining passed front.reverse := by
    simp [remaining_reverse]
  rw [shape] at delimits'
  have heads := head?_remaining nodup' fresh started' delimits' last notFirst (by
    rintro left right ⟨before, after, split, code, endCode⟩
    have around : start.RunAround (front ++ inst :: back) right.reverse inst left.reverse := by
      refine ⟨after.reverse, before.reverse, ?_, ?_, ?_⟩
      · rw [← List.reverse_inj, reversed, split]
        simp
      · have last : start.code = (left ++ inst :: right).getLast? := endCode
        rw [last, ← List.head?_reverse]
        simp
      · have first : start.endCode = (left ++ inst :: right).head? := code
        rw [first, ← List.getLast?_reverse]
        simp
    have nearby := kept _ _ around
    rwa [List.reverse_reverse, List.reverse_reverse] at nearby)
  rw [remaining_reverse, List.head?_reverse, List.head?_reverse] at heads
  exact heads

end

end DaveCC.Backend
