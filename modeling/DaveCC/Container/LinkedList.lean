import Mathlib.Data.List.Nodup

/-!
# Invasive doubly linked lists

The headers of the elements hold their neighbours, and a list holds its ends. A
list represents a sequence when the headers of its elements say so. The operations
of `list.c` on the headers are then the operations on the sequence.

Every operation has its mirror image, so only one direction of each is proved.
-/

namespace DaveCC.Container

variable {α : Type*} [DecidableEq α]

/-- A list and the headers of every element there is. -/
structure LinkedList (α : Type*) where
  first : Option α := none
  last : Option α := none
  length : Nat := 0
  prev : α → Option α := fun _ => none
  next : α → Option α := fun _ => none

namespace LinkedList

def setPrev (list : LinkedList α) (element : α) (prev : Option α) : LinkedList α :=
  { list with prev := Function.update list.prev element prev }

def setNext (list : LinkedList α) (element : α) (next : Option α) : LinkedList α :=
  { list with next := Function.update list.next element next }

/-- `ListElementInit`. -/
def elementInit (list : LinkedList α) (element : α) : LinkedList α :=
  (list.setPrev element none).setNext element none

/-- `ListInsertBefore`. -/
def insertBefore (list : LinkedList α) (element position : α) : LinkedList α :=
  let list := list.setNext element (some position)
  let list :=
    match list.prev position with
    | none => { list with first := some element }
    | some before => list.setNext before (some element)
  let list := list.setPrev element (list.prev position)
  let list := list.setPrev position (some element)
  { list with length := list.length + 1 }

/-- `ListInsertAfter`, at a position of the list. -/
def insertAfter (list : LinkedList α) (element position : α) : LinkedList α :=
  let list := list.setPrev element (some position)
  let list :=
    match list.next position with
    | none => { list with last := some element }
    | some after => list.setPrev after (some element)
  let list := list.setNext element (list.next position)
  let list := list.setNext position (some element)
  { list with length := list.length + 1 }

/-- `ListAppend`. -/
def append (list : LinkedList α) (element : α) : LinkedList α :=
  let list :=
    match list.last with
    | none => { list with first := some element, last := some element }
    | some last =>
      let list := list.setPrev element (some last)
      let list := list.setNext last (some element)
      { list with last := some element }
  { list with length := list.length + 1 }

/-- `ListDeleteElement`. The header of the element keeps its neighbours. -/
def deleteElement (list : LinkedList α) (element : α) : LinkedList α :=
  let list :=
    match list.prev element with
    | none => { list with first := list.next element }
    | some before => list.setNext before (list.next element)
  let list :=
    match list.next element with
    | none => { list with last := list.prev element }
    | some after => list.setPrev after (list.prev element)
  { list with length := list.length - 1 }

/-- The same list read from its other end. -/
def mirror (list : LinkedList α) : LinkedList α where
  first := list.last
  last := list.first
  length := list.length
  prev := list.next
  next := list.prev

theorem mirror_insertBefore (list : LinkedList α) (element position : α) :
    (list.mirror.insertBefore element position).mirror =
      list.insertAfter element position := by
  cases next : list.next position with
  | none => simp [insertBefore, insertAfter, mirror, setPrev, setNext, next]
  | some after => simp [insertBefore, insertAfter, mirror, setPrev, setNext, next]

/-- The list and the headers of its elements represent a sequence. -/
structure Represents (list : LinkedList α) (elements : List α) : Prop where
  nodup : elements.Nodup
  first : list.first = elements.head?
  last : list.last = elements.getLast?
  length : list.length = elements.length
  prev : ∀ before element after, elements = before ++ element :: after →
    list.prev element = before.getLast?
  next : ∀ before element after, elements = before ++ element :: after →
    list.next element = after.head?

/-- A header outside the list is as `ListElementInit` leaves it. -/
def Detached (list : LinkedList α) (element : α) : Prop :=
  list.prev element = none ∧ list.next element = none

variable {list : LinkedList α} {elements before after : List α} {element position : α}

theorem insertBefore_prev (other : α) :
    (list.insertBefore element position).prev other = if other = position then some element
      else if other = element then list.prev position
      else list.prev other := by
  cases prev : list.prev position with
  | none => simp [insertBefore, setPrev, setNext, Function.update_apply, prev]
  | some before => simp [insertBefore, setPrev, setNext, Function.update_apply, prev]

theorem insertBefore_next (other : α) :
    (list.insertBefore element position).next other =
      if list.prev position = some other then some element
      else if other = element then some position
      else list.next other := by
  cases prev : list.prev position with
  | none => simp [insertBefore, setPrev, setNext, Function.update_apply, prev]
  | some before =>
    simp [insertBefore, setPrev, setNext, Function.update_apply, prev, eq_comm]

theorem insertBefore_ends (list : LinkedList α) (element position : α) :
    (list.insertBefore element position).first =
        (if list.prev position = none then some element else list.first) ∧
      (list.insertBefore element position).last = list.last ∧
      (list.insertBefore element position).length = list.length + 1 := by
  cases prev : list.prev position with
  | none => simp [insertBefore, setPrev, setNext, prev]
  | some before => simp [insertBefore, setPrev, setNext, prev]

/-- The headers and the ends after an element that does not point back to itself is deleted. -/
theorem deleteElement_fields (other : α) (apart : list.prev element ≠ some element) :
    ((list.deleteElement element).prev other =
        if list.next element = some other then list.prev element else list.prev other) ∧
      ((list.deleteElement element).next other =
        if list.prev element = some other then list.next element else list.next other) ∧
      (list.deleteElement element).first =
        (if list.prev element = none then list.next element else list.first) ∧
      (list.deleteElement element).last =
        (if list.next element = none then list.prev element else list.last) ∧
      (list.deleteElement element).length = list.length - 1 := by
  cases prev : list.prev element with
  | none =>
    cases next : list.next element with
    | none => simp [deleteElement, prev, next]
    | some after =>
      simp [deleteElement, setPrev, Function.update_apply, prev, next, eq_comm]
  | some before =>
    have beforeNe : element ≠ before := by
      intro same
      exact apart (same ▸ prev)
    cases next : list.next element with
    | none =>
      simp [deleteElement, setNext, Function.update_apply, prev, next, beforeNe, eq_comm]
    | some after =>
      simp [deleteElement, setPrev, setNext, Function.update_apply, prev, next, beforeNe, eq_comm]

/-! ## Operations on a represented sequence -/

theorem elementInit_detached : (list.elementInit element).Detached element := by
  simp [Detached, elementInit, setPrev, setNext]

theorem elementInit_prev (other : α) :
    (list.elementInit element).prev other = if other = element then none else list.prev other := by
  simp [elementInit, setPrev, setNext, Function.update_apply]

theorem elementInit_next (other : α) :
    (list.elementInit element).next other = if other = element then none else list.next other := by
  simp [elementInit, setPrev, setNext, Function.update_apply]

omit [DecidableEq α] in
/-- An element of a concatenation stands in one of its parts. -/
theorem append_cases {left right : List α} {other : α}
    (split : before ++ after = left ++ other :: right) :
    (∃ middle, before = left ++ other :: middle ∧ right = middle ++ after) ∨
      ∃ middle, after = middle ++ other :: right ∧ left = before ++ middle := by
  rcases List.append_eq_append_iff.mp split with ⟨middle, leftEq, rest⟩ | ⟨middle, beforeEq, rest⟩
  · exact .inr ⟨middle, rest, leftEq⟩
  · cases middle with
    | nil => exact .inr ⟨[], by simp_all⟩
    | cons head tail =>
      simp only [List.cons_append, List.cons.injEq] at rest
      obtain ⟨rfl, rfl⟩ := rest
      exact .inl ⟨tail, beforeEq, rfl⟩

omit [DecidableEq α] in
/-- Two splits of a sequence, the second at an element before, at or after the first. -/
theorem split_cases {left right : List α} {other : α}
    (split : before ++ element :: after = left ++ other :: right) :
    (∃ middle, before = left ++ other :: middle ∧ right = middle ++ element :: after) ∨
      (before = left ∧ element = other ∧ after = right) ∨
      ∃ middle, after = middle ++ other :: right ∧ left = before ++ element :: middle := by
  rcases append_cases split with ⟨middle, beforeEq, rightEq⟩ | ⟨middle, afterEq, leftEq⟩
  · exact .inl ⟨middle, beforeEq, rightEq⟩
  · cases middle with
    | nil => simp_all
    | cons head tail =>
      simp only [List.cons_append, List.cons.injEq] at afterEq
      obtain ⟨rfl, rfl⟩ := afterEq
      exact .inr (.inr ⟨tail, rfl, leftEq⟩)

namespace Represents

omit [DecidableEq α] in
theorem mirror (represents : list.Represents elements) :
    list.mirror.Represents elements.reverse where
  nodup := List.nodup_reverse.mpr represents.nodup
  first := by simpa [LinkedList.mirror] using represents.last
  last := by simpa [LinkedList.mirror] using represents.first
  length := by simpa [LinkedList.mirror] using represents.length
  prev := by
    intro before element after split
    have split' : elements = after.reverse ++ element :: before.reverse := by
      have reversed := congrArg List.reverse split
      simpa using reversed
    simpa [LinkedList.mirror] using represents.next _ _ _ split'
  next := by
    intro before element after split
    have split' : elements = after.reverse ++ element :: before.reverse := by
      have reversed := congrArg List.reverse split
      simpa using reversed
    simpa [LinkedList.mirror] using represents.prev _ _ _ split'

omit [DecidableEq α] in
/-- A header that no element of the list reads may hold anything. -/
theorem congr {other : LinkedList α} (represents : list.Represents elements)
    (first : other.first = list.first) (last : other.last = list.last)
    (length : other.length = list.length)
    (prev : ∀ element ∈ elements, other.prev element = list.prev element)
    (next : ∀ element ∈ elements, other.next element = list.next element) :
    other.Represents elements where
  nodup := represents.nodup
  first := first.trans represents.first
  last := last.trans represents.last
  length := length.trans represents.length
  prev := by
    intro before element after split
    rw [prev element (by simp [split])]
    exact represents.prev before element after split
  next := by
    intro before element after split
    rw [next element (by simp [split])]
    exact represents.next before element after split

omit [DecidableEq α] in
/-- The neighbours of an element of a represented sequence. -/
theorem neighbours (represents : list.Represents (before ++ element :: after)) :
    list.prev element = before.getLast? ∧ list.next element = after.head? :=
  ⟨represents.prev _ _ _ rfl, represents.next _ _ _ rfl⟩

theorem insertBefore (represents : list.Represents (before ++ position :: after))
    (fresh : element ∉ before ++ position :: after) :
    (list.insertBefore element position).Represents
      (before ++ element :: position :: after) := by
  have prevEq := represents.neighbours.1
  have nodup := represents.nodup
  obtain ⟨first, last, length⟩ := list.insertBefore_ends element position
  constructor
  · exact List.nodup_middle.mpr (List.nodup_cons.mpr ⟨fresh, nodup⟩)
  · rw [first, prevEq, represents.first]
    cases before with
    | nil => simp
    | cons head rest => simp
  · rw [last, represents.last]
    simp
  · rw [length, represents.length]
    simp only [List.length_append, List.length_cons, Nat.add_assoc]
  · intro left other right split
    rw [insertBefore_prev, prevEq]
    rcases split_cases split with ⟨middle, rfl, -⟩ | ⟨rfl, rfl, -⟩ | ⟨middle, rest, rfl⟩
    · have old := represents.prev left other (middle ++ position :: after) (by simp)
      rw [if_neg (by grind), if_neg (by grind), old]
    · rw [if_neg (by grind), if_pos rfl]
    · cases middle with
      | nil =>
        simp only [List.nil_append, List.cons.injEq] at rest
        rw [if_pos rest.1.symm]
        simp
      | cons head tail =>
        simp only [List.cons_append, List.cons.injEq] at rest
        obtain ⟨rfl, rfl⟩ := rest
        have old := represents.prev (before ++ position :: tail) other right (by simp)
        rw [if_neg (by grind), if_neg (by grind), old]
        simp
  · intro left other right split
    rw [insertBefore_next, prevEq]
    rcases split_cases split with ⟨middle, rfl, rfl⟩ | ⟨rfl, rfl, rfl⟩ | ⟨middle, rest, rfl⟩
    · have old := represents.next left other (middle ++ position :: after) (by simp)
      cases middle with
      | nil => simp
      | cons head tail =>
        have notLast : (left ++ other :: head :: tail).getLast? ≠ some other := by
          intro same
          grind
        rw [if_neg notLast, if_neg (by grind), old]
        simp
    · have notLast : before.getLast? ≠ some element := by
        intro same
        exact fresh (List.mem_append_left _ (List.mem_of_getLast? same))
      rw [if_neg notLast, if_pos rfl]
      simp
    · have notLast : before.getLast? ≠ some other := by
        intro same
        grind
      have old : list.next other = right.head? := by
        cases middle with
        | nil =>
          obtain ⟨rfl, rfl⟩ := rest
          exact represents.neighbours.2
        | cons head tail =>
          obtain ⟨rfl, rfl⟩ := rest
          exact represents.next (before ++ position :: tail) other right (by simp)
      rw [if_neg notLast, if_neg (by grind), old]

theorem insertAfter (represents : list.Represents (before ++ position :: after))
    (fresh : element ∉ before ++ position :: after) :
    (list.insertAfter element position).Represents
      (before ++ position :: element :: after) := by
  have mirrored := represents.mirror
  rw [List.reverse_append, List.reverse_cons, List.append_assoc] at mirrored
  have fresh' : element ∉ after.reverse ++ ([position] ++ before.reverse) := by
    grind
  have inserted := (mirrored.insertBefore fresh').mirror
  rw [mirror_insertBefore] at inserted
  simpa using inserted

/-- Appending to a list that has a last element is inserting after it. -/
theorem append_eq_insertAfter (represents : list.Represents (before ++ [position]))
    (fresh : element ∉ before ++ [position]) (detached : list.Detached element) :
    list.append element = list.insertAfter element position := by
  have lastEq : list.last = some position := by simpa using represents.last
  have nextEq : list.next position = none := represents.neighbours.2
  -- The header of the element already ends the list.
  have ends : Function.update list.next element none = list.next := by
    rw [← detached.2, Function.update_eq_self]
  simp [LinkedList.append, LinkedList.insertAfter, lastEq, nextEq, setPrev, setNext, ends]

theorem append (represents : list.Represents elements) (fresh : element ∉ elements)
    (detached : list.Detached element) :
    (list.append element).Represents (elements ++ [element]) := by
  rcases List.eq_nil_or_concat elements with rfl | ⟨front, last, rfl⟩
  · have lastEq : list.last = none := represents.last
    have length : list.length = 0 := represents.length
    refine ⟨List.nodup_singleton element, ?_, ?_, ?_, ?_, ?_⟩
    · simp [LinkedList.append, lastEq]
    · simp [LinkedList.append, lastEq]
    · simp [LinkedList.append, lastEq, length]
    · intro before other after split
      cases before with
      | nil =>
        cases split
        simpa [LinkedList.append, lastEq] using detached.1
      | cons head rest => simp at split
    · intro before other after split
      cases before with
      | nil =>
        cases split
        simpa [LinkedList.append, lastEq] using detached.2
      | cons head rest => simp at split
  · rw [List.concat_eq_append] at represents fresh ⊢
    rw [represents.append_eq_insertAfter fresh detached, List.append_assoc, List.singleton_append]
    exact represents.insertAfter fresh

omit [DecidableEq α] in
theorem prev_ne_self (represents : list.Represents (before ++ element :: after)) :
    list.prev element ≠ some element := by
  intro same
  rw [represents.neighbours.1] at same
  have nodup := List.nodup_cons.mp (List.nodup_middle.mp represents.nodup)
  exact nodup.1 (List.mem_append_left after (List.mem_of_getLast? same))

theorem deleteElement (represents : list.Represents (before ++ element :: after)) :
    (list.deleteElement element).Represents (before ++ after) := by
  obtain ⟨prevEq, nextEq⟩ := represents.neighbours
  have nodup := List.nodup_cons.mp (List.nodup_middle.mp represents.nodup)
  have apart := represents.prev_ne_self
  obtain ⟨-, -, first, last, length⟩ := deleteElement_fields element apart
  constructor
  · exact nodup.2
  · rw [first, prevEq, nextEq, represents.first]
    cases before with
    | nil => simp
    | cons head rest => simp
  · rw [last, prevEq, nextEq, represents.last]
    cases after with
    | nil => simp
    | cons head rest => simp
  · rw [length, represents.length]
    simp
  · intro left other right split
    rw [(deleteElement_fields _ apart).1, prevEq, nextEq]
    rcases append_cases split with ⟨middle, rfl, -⟩ | ⟨middle, rfl, rfl⟩
    · have old := represents.prev left other (middle ++ element :: after) (by simp)
      have notHead : after.head? ≠ some other := by
        intro same
        have := List.mem_of_head? same
        grind
      rw [if_neg notHead, old]
    · have old := represents.prev (before ++ element :: middle) other right (by simp)
      cases middle with
      | nil => simp
      | cons head tail =>
        have notHead : (head :: tail ++ other :: right).head? ≠ some other := by
          grind
        rw [if_neg notHead, old]
        simp
  · intro left other right split
    rw [(deleteElement_fields _ apart).2.1, prevEq, nextEq]
    rcases append_cases split with ⟨middle, rfl, rfl⟩ | ⟨middle, rfl, rfl⟩
    · have old := represents.next left other (middle ++ element :: after) (by simp)
      cases middle with
      | nil => simp
      | cons head tail =>
        have notLast : (left ++ other :: head :: tail).getLast? ≠ some other := by
          intro same
          grind
        rw [if_neg notLast, old]
        simp
    · have old := represents.next (before ++ element :: middle) other right (by simp)
      have notLast : before.getLast? ≠ some other := by
        intro same
        grind
      rw [if_neg notLast, old]

omit [DecidableEq α] in
/-- The headers from one element on determine the rest of the sequence. -/
theorem rest_unique {other : LinkedList α} {others left right rest : List α}
    (represents : list.Represents elements) (represents' : other.Represents others)
    (sameNext : ∀ element, other.next element = list.next element)
    (split : elements = before ++ rest) (split' : others = left ++ right)
    (same : rest.head? = right.head?) : rest = right := by
  induction rest generalizing before left right with
  | nil => simpa [eq_comm, List.head?_eq_none_iff] using same
  | cons head tail ih =>
    cases right with
    | nil => cases same
    | cons head' tail' =>
      simp only [List.head?_cons, Option.some.injEq] at same
      subst same
      have next := represents.next _ _ _ split
      rw [← sameNext, represents'.next _ _ _ split'] at next
      have shifted : elements = (before ++ [head]) ++ tail := by simp [split]
      have shifted' : others = (left ++ [head]) ++ tail' := by simp [split']
      rw [ih shifted shifted' next.symm]

omit [DecidableEq α] in
/-- The first element and the headers determine the sequence. -/
theorem unique_of_next {other : LinkedList α} {others : List α}
    (represents : list.Represents elements) (represents' : other.Represents others)
    (first : other.first = list.first)
    (sameNext : ∀ element, other.next element = list.next element) : elements = others := by
  have heads : elements.head? = others.head? := by
    rw [← represents.first, ← represents'.first, first]
  exact represents.rest_unique represents' sameNext (List.nil_append elements).symm
    (List.nil_append others).symm heads

omit [DecidableEq α] in
/-- A list represents one sequence. -/
theorem unique {others : List α} (represents : list.Represents elements)
    (represents' : list.Represents others) : elements = others :=
  represents.unique_of_next represents' rfl fun _ => rfl

omit [DecidableEq α] in
theorem prev_mem (represents : list.Represents elements) (mem : element ∈ elements)
    {other : α} (prev : list.prev element = some other) : other ∈ elements := by
  obtain ⟨before, after, rfl⟩ := List.append_of_mem mem
  rw [represents.neighbours.1] at prev
  exact List.mem_append_left _ (List.mem_of_getLast? prev)

omit [DecidableEq α] in
theorem next_mem (represents : list.Represents elements) (mem : element ∈ elements)
    {other : α} (next : list.next element = some other) : other ∈ elements := by
  obtain ⟨before, after, rfl⟩ := List.append_of_mem mem
  rw [represents.neighbours.2] at next
  exact List.mem_append_right _ (List.mem_cons_of_mem _ (List.mem_of_head? next))

variable {other : α}

section

variable (represents : list.Represents elements) (mem : position ∈ elements)
  (outside : other ∉ elements) (apart : other ≠ element) (detached : list.Detached other)

include represents mem outside apart detached

theorem detached_insertBefore : (list.insertBefore element position).Detached other := by
  have notPrev : list.prev position ≠ some other := by
    intro prev
    exact outside (represents.prev_mem mem prev)
  have notPosition : other ≠ position := by
    rintro rfl
    exact outside mem
  rw [Detached, insertBefore_prev, insertBefore_next, if_neg notPosition, if_neg apart,
    if_neg notPrev, if_neg apart]
  exact detached

theorem detached_insertAfter : (list.insertAfter element position).Detached other := by
  have mem' : position ∈ elements.reverse := by simpa using mem
  have mirrored := represents.mirror.detached_insertBefore mem' (by simpa using outside) apart
    detached.symm
  rw [← mirror_insertBefore]
  exact mirrored.symm

end

theorem detached_deleteElement (represents : list.Represents elements) (mem : element ∈ elements)
    (outside : other ∉ elements) (detached : list.Detached other) :
    (list.deleteElement element).Detached other := by
  obtain ⟨before, after, rfl⟩ := List.append_of_mem mem
  have apart := represents.prev_ne_self
  have notPrev : list.prev element ≠ some other := by
    intro prev
    exact outside (represents.prev_mem mem prev)
  have notNext : list.next element ≠ some other := by
    intro next
    exact outside (represents.next_mem mem next)
  rw [Detached, (deleteElement_fields _ apart).1, (deleteElement_fields _ apart).2.1, if_neg notNext,
    if_neg notPrev]
  exact detached

theorem detached_append (represents : list.Represents elements) (fresh : element ∉ elements)
    (elementDetached : list.Detached element) (outside : other ∉ elements)
    (apart : other ≠ element) (detached : list.Detached other) :
    (list.append element).Detached other := by
  rcases List.eq_nil_or_concat elements with rfl | ⟨front, last, rfl⟩
  · have lastEq : list.last = none := represents.last
    simpa [LinkedList.append, lastEq, Detached] using detached
  · rw [List.concat_eq_append] at represents fresh outside
    rw [represents.append_eq_insertAfter fresh elementDetached]
    exact represents.detached_insertAfter (by simp) outside apart detached

end Represents

end LinkedList

end DaveCC.Container
