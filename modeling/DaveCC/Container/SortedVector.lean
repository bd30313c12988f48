import Mathlib.Data.List.Sort

/-!
# Sorted vectors without duplicates

A vector whose elements ascend, searched by halving. The search ends at the first
element that is not smaller, which is the element looked for or the place where it
belongs.
-/

namespace DaveCC.Container.SortedVector

universe u

variable {α : Type u} [LinearOrder α]

/-- The first index between two of them whose element is not smaller than the value. -/
def lowerBound (vector : List α) (value : α) (low high : Nat) : Nat :=
  if low < high then
    let mid := low + (high - low) / 2
    if ∃ candidate ∈ vector[mid]?, candidate < value then
      lowerBound vector value (mid + 1) high
    else lowerBound vector value low mid
  else low
termination_by high - low

/-- Where the value is in the vector, or belongs. -/
def position (vector : List α) (value : α) : Nat :=
  lowerBound vector value 0 vector.length

/-- Whether the search ends at the value. -/
def found (vector : List α) (value : α) : Bool :=
  vector[position vector value]? = some value

def insertAt (vector : List α) (index : Nat) (value : α) : List α :=
  vector.take index ++ value :: vector.drop index

/-- The elements ascend. -/
abbrev Ascending (vector : List α) : Prop := vector.Pairwise (· < ·)

variable {vector : List α} {value : α}

theorem Ascending.lt_of_getElem? (ascending : Ascending vector) {first second : Nat}
    {left right : α} (before : first < second) (leftEq : vector[first]? = some left)
    (rightEq : vector[second]? = some right) : left < right := by
  obtain ⟨firstLt, rfl⟩ := List.getElem?_eq_some_iff.mp leftEq
  obtain ⟨secondLt, rfl⟩ := List.getElem?_eq_some_iff.mp rightEq
  exact List.pairwise_iff_getElem.mp ascending first second firstLt secondLt before

/-- Everything before the end of the search is smaller, and nothing after it is. -/
structure Bounds (vector : List α) (value : α) (low high : Nat) : Prop where
  smaller : ∀ index element, index < low → vector[index]? = some element → element < value
  notSmaller : ∀ index element, high ≤ index → vector[index]? = some element → value ≤ element

theorem Bounds.lowerBound (ascending : Ascending vector) {low high : Nat} (ordered : low ≤ high)
    (inside : high ≤ vector.length) (bounds : Bounds vector value low high) :
    Bounds vector value (lowerBound vector value low high)
        (SortedVector.lowerBound vector value low high) ∧
      SortedVector.lowerBound vector value low high ≤ vector.length := by
  fun_induction SortedVector.lowerBound vector value low high with
  | case1 low high less mid isSmaller ih =>
    apply ih (by omega) inside
    refine ⟨?_, bounds.notSmaller⟩
    intro index element before elementEq
    obtain ⟨candidate, candidateEq, candidateLt⟩ := isSmaller
    rcases Nat.lt_or_eq_of_le (Nat.le_of_lt_succ before) with earlier | rfl
    · exact (ascending.lt_of_getElem? earlier elementEq candidateEq).trans candidateLt
    · rw [candidateEq, Option.some.injEq] at elementEq
      exact elementEq ▸ candidateLt
  | case2 low high less mid notSmaller ih =>
    apply ih (by omega) (by omega)
    refine ⟨bounds.smaller, ?_⟩
    intro index element after elementEq
    have midLt : mid < vector.length := by omega
    have candidateEq : vector[mid]? = some vector[mid] := List.getElem?_eq_getElem midLt
    have candidateLe : value ≤ vector[mid] := by
      by_contra less
      exact notSmaller ⟨_, candidateEq, not_le.mp less⟩
    rcases Nat.lt_or_eq_of_le after with later | rfl
    · exact candidateLe.trans (ascending.lt_of_getElem? later candidateEq elementEq).le
    · rw [candidateEq, Option.some.injEq] at elementEq
      exact elementEq ▸ candidateLe
  | case3 low high done =>
    have same : low = high := by omega
    subst same
    exact ⟨bounds, inside⟩

/-- The search of a whole vector. -/
theorem Ascending.position (ascending : Ascending vector) (value : α) :
    Bounds vector value (position vector value) (SortedVector.position vector value) ∧
      SortedVector.position vector value ≤ vector.length := by
  apply Bounds.lowerBound ascending (Nat.zero_le _) (Nat.le_refl _)
  constructor
  · intro index element before
    exact absurd before (Nat.not_lt_zero _)
  · intro index element outside elementEq
    exact absurd (List.getElem?_eq_some_iff.mp elementEq).1 (Nat.not_lt.mpr outside)

theorem Ascending.found_iff (ascending : Ascending vector) :
    found vector value = true ↔ value ∈ vector := by
  rw [found, decide_eq_true_iff]
  constructor
  · exact List.mem_of_getElem?
  · intro member
    obtain ⟨index, valueEq⟩ := List.mem_iff_getElem?.mp member
    obtain ⟨bounds, -⟩ := ascending.position value
    rcases Nat.lt_trichotomy index (SortedVector.position vector value) with before | same | after
    · exact absurd (bounds.smaller index value before valueEq) (lt_irrefl _)
    · rw [← same]
      exact valueEq
    · have indexLt := (List.getElem?_eq_some_iff.mp valueEq).1
      have boundLt : SortedVector.position vector value < vector.length := by omega
      have boundEq := List.getElem?_eq_getElem boundLt
      have less := ascending.lt_of_getElem? after boundEq valueEq
      exact absurd (bounds.notSmaller _ _ (Nat.le_refl _) boundEq) (not_le.mpr less)

/-- A value that is absent is inserted where the search ends. -/
theorem Ascending.insertAt (ascending : Ascending vector) (absent : value ∉ vector) :
    Ascending (insertAt vector (SortedVector.position vector value) value) := by
  obtain ⟨bounds, -⟩ := ascending.position value
  generalize SortedVector.position vector value = index at bounds
  have split := List.take_append_drop index vector
  have parts : Ascending (vector.take index ++ vector.drop index) := by
    rw [split]
    exact ascending
  obtain ⟨front, back, across⟩ := List.pairwise_append.mp parts
  refine List.pairwise_append.mpr ⟨front, List.pairwise_cons.mpr ⟨?_, back⟩, ?_⟩
  · intro element member
    obtain ⟨offset, elementEq⟩ := List.mem_iff_getElem?.mp member
    rw [List.getElem?_drop] at elementEq
    apply lt_of_le_of_ne (bounds.notSmaller _ _ (Nat.le_add_right _ _) elementEq)
    rintro rfl
    exact absent (List.mem_of_getElem? elementEq)
  · intro left leftMem right rightMem
    rcases List.mem_cons.mp rightMem with rfl | rightMem
    · obtain ⟨offset, elementEq⟩ := List.mem_iff_getElem?.mp leftMem
      rw [List.getElem?_take] at elementEq
      split at elementEq
      · next before => exact bounds.smaller _ _ before elementEq
      · cases elementEq
    · exact across left leftMem right rightMem

omit [LinearOrder α] in
theorem insertAt_perm (vector : List α) (index : Nat) (value : α) :
    (insertAt vector index value).Perm (value :: vector) := by
  have moved : (insertAt vector index value).Perm
      (value :: (vector.take index ++ vector.drop index)) := List.perm_middle
  rwa [List.take_append_drop] at moved

/-- The value is deleted where the search finds it. -/
theorem Ascending.eraseIdx_position (ascending : Ascending vector) (member : value ∈ vector) :
    vector.eraseIdx (SortedVector.position vector value) = vector.erase value := by
  have located := ascending.found_iff.mpr member
  rw [found, decide_eq_true_iff] at located
  have nodup : vector.Nodup := ascending.imp ne_of_lt
  obtain ⟨indexLt, valueEq⟩ := List.getElem?_eq_some_iff.mp located
  rw [List.erase_eq_eraseIdx_of_idxOf]
  conv => lhs; rw [← valueEq]
  exact nodup.idxOf_getElem _ indexLt

theorem Ascending.erase (ascending : Ascending vector) : Ascending (vector.erase value) :=
  List.Pairwise.sublist List.erase_sublist ascending

end DaveCC.Container.SortedVector
