import Mathlib.Data.List.Sort
import Mathlib.Data.List.Pairwise
import Mathlib.Data.List.Perm.Basic
import Mathlib.Tactic.Linarith

/-!
# Sorting with a caller's comparison

`qsort` promises a permutation of its input, and an ascending one only when the
results of the comparison are consistent with one another. It is not stable:
elements that compare equal may come in any order. The results say when every
permitted outcome is in the order of a key.
-/

namespace DaveCC.Container

variable {α : Type*}

/-- Some rank of the elements explains every result of the comparison. -/
def Consistent (compare : α → α → ℤ) (elements : List α) : Prop :=
  ∃ rank : α → ℤ, ∀ first ∈ elements, ∀ second ∈ elements,
    (compare first second < 0 ↔ rank first < rank second) ∧
      (0 < compare first second ↔ rank second < rank first)

/-- A result that `qsort` may leave in its array. -/
structure Qsorted (compare : α → α → ℤ) (elements sorted : List α) : Prop where
  perm : sorted.Perm elements
  ascending : Consistent compare elements →
    sorted.Pairwise fun first second => compare first second ≤ 0

/-- The comparison never puts an element after one with a greater key. -/
def Follows (compare : α → α → ℤ) (key : α → ℤ) (elements : List α) : Prop :=
  ∀ first ∈ elements, ∀ second ∈ elements,
    key first < key second → compare first second < 0 ∧ 0 < compare second first

/-- Elements with one key compare equal. -/
def Ties (compare : α → α → ℤ) (key : α → ℤ) (elements : List α) : Prop :=
  ∀ first ∈ elements, ∀ second ∈ elements, key first = key second → compare first second = 0

variable {compare : α → α → ℤ} {key : α → ℤ} {elements sorted : List α}

/-- A comparison that follows a key is consistent: the key is the rank. -/
theorem Follows.consistent (follows : Follows compare key elements)
    (ties : Ties compare key elements) : Consistent compare elements := by
  refine ⟨key, ?_⟩
  intro first firstMem second secondMem
  rcases lt_trichotomy (key first) (key second) with less | equal | greater
  · obtain ⟨negative, -⟩ := follows first firstMem second secondMem less
    constructor <;> constructor <;> intro <;> linarith
  · have zero := ties first firstMem second secondMem equal
    constructor <;> constructor <;> intro <;> linarith
  · obtain ⟨-, positive⟩ := follows second secondMem first firstMem greater
    constructor <;> constructor <;> intro <;> linarith

/-- Every outcome of sorting by a comparison that follows a key is in its order. -/
theorem Qsorted.sorted_of_follows (outcome : Qsorted compare elements sorted)
    (follows : Follows compare key elements) (ties : Ties compare key elements) :
    sorted.Pairwise fun first second => key first ≤ key second := by
  have ascending := outcome.ascending (follows.consistent ties)
  apply ascending.imp_of_mem
  intro first second firstMem secondMem atMost
  by_contra greater
  have positive := (follows second (outcome.perm.mem_iff.mp secondMem) first
    (outcome.perm.mem_iff.mp firstMem) (not_le.mp greater)).2
  linarith

/-- The order of a consistent comparison with ties against the key. -/
private def tieBreak (rank key : α → ℤ) (first second : α) : Bool :=
  decide (rank first < rank second ∨ rank first = rank second ∧ key second ≤ key first)

/-- A consistent comparison permits the outcome with ties against the key. -/
theorem exists_qsorted_against (key : α → ℤ) (consistent : Consistent compare elements) :
    ∃ sorted, Qsorted compare elements sorted ∧
      sorted.Pairwise fun first second =>
        compare first second < 0 ∨ key second ≤ key first := by
  obtain ⟨rank, explains⟩ := consistent
  have transitive : ∀ first second third, tieBreak rank key first second = true →
      tieBreak rank key second third = true → tieBreak rank key first third = true := by
    intro first second third
    simp only [tieBreak, decide_eq_true_eq]
    omega
  have total : ∀ first second,
      (tieBreak rank key first second || tieBreak rank key second first) = true := by
    intro first second
    simp only [tieBreak, Bool.or_eq_true, decide_eq_true_eq]
    omega
  have perm : (elements.mergeSort (tieBreak rank key)).Perm elements :=
    List.mergeSort_perm _ _
  have ordered := List.pairwise_mergeSort transitive total elements
  refine ⟨_, ⟨perm, fun _ => ?_⟩, ?_⟩
  all_goals
    apply ordered.imp_of_mem
    intro first second firstMem secondMem before
    obtain ⟨negative, positive⟩ := explains first (perm.mem_iff.mp firstMem) second
      (perm.mem_iff.mp secondMem)
    simp only [tieBreak, decide_eq_true_eq] at before
    omega

/-- An inconsistent comparison permits every permutation. -/
theorem qsorted_of_not_consistent (inconsistent : ¬ Consistent compare elements)
    (perm : sorted.Perm elements) : Qsorted compare elements sorted :=
  ⟨perm, fun consistent => absurd consistent inconsistent⟩

/-- Sorting has an outcome. -/
theorem exists_qsorted (compare : α → α → ℤ) (elements : List α) :
    ∃ sorted, Qsorted compare elements sorted := by
  by_cases consistent : Consistent compare elements
  · obtain ⟨sorted, outcome, -⟩ := exists_qsorted_against (fun _ => 0) consistent
    exact ⟨sorted, outcome⟩
  · exact ⟨elements, qsorted_of_not_consistent consistent (.refl _)⟩

variable {first second : α}

/-- Two different members can be put first in either order. -/
private theorem exists_perm_cons_cons (firstMem : first ∈ elements)
    (secondMem : second ∈ elements) (different : first ≠ second) :
    ∃ rest, (first :: second :: rest).Perm elements := by
  classical
  have secondErased : second ∈ elements.erase first :=
    (List.mem_erase_of_ne (Ne.symm different)).mpr secondMem
  have restPerm := (List.perm_cons_erase secondErased).symm.cons first
  exact ⟨_, restPerm.trans (List.perm_cons_erase firstMem).symm⟩

/-- One of two different members precedes the other. -/
private theorem related_of_mem {relation : α → α → Prop} (pairwise : sorted.Pairwise relation)
    (firstMem : first ∈ sorted) (secondMem : second ∈ sorted) (different : first ≠ second) :
    relation first second ∨ relation second first := by
  have symmetric := pairwise.imp
    (S := fun left right => relation left right ∨ relation right left) Or.inl
  have swap : Std.Symm fun left right => relation left right ∨ relation right left :=
    ⟨fun _ _ => Or.symm⟩
  exact symmetric.forall firstMem secondMem different

/-- An element that compares at most as one with a smaller key may be left
before it. -/
theorem exists_qsorted_not_sorted (firstMem : first ∈ elements) (secondMem : second ∈ elements)
    (less : key first < key second) (misordered : compare second first ≤ 0) :
    ∃ sorted, Qsorted compare elements sorted ∧
      ¬ sorted.Pairwise fun first second => key first ≤ key second := by
  by_cases consistent : Consistent compare elements
  · obtain ⟨sorted, outcome, against⟩ := exists_qsorted_against key consistent
    refine ⟨sorted, outcome, fun ascending => ?_⟩
    obtain ⟨rank, explains⟩ := consistent
    have firstOnly := (explains first firstMem second secondMem).1
    have secondOnly := (explains second secondMem first firstMem).2
    have different : first ≠ second := by
      rintro rfl
      exact lt_irrefl _ less
    have ordered := related_of_mem (ascending.and against)
      (outcome.perm.mem_iff.mpr firstMem) (outcome.perm.mem_iff.mpr secondMem) different
    omega
  · obtain ⟨rest, perm⟩ := exists_perm_cons_cons secondMem firstMem
      (by rintro rfl; exact lt_irrefl _ less)
    refine ⟨_, qsorted_of_not_consistent consistent perm, fun ascending => ?_⟩
    have head := List.rel_of_pairwise_cons ascending (List.mem_cons_self (a := first))
    exact absurd head (not_le.mpr less)

/-- Every permitted outcome is in the order of the key exactly when a greater key
always compares as greater. -/
theorem forall_qsorted_iff
    (opposed : ∀ first second, 0 < compare first second → compare second first < 0)
    (ties : Ties compare key elements) :
    (∀ sorted, Qsorted compare elements sorted →
        sorted.Pairwise fun first second => key first ≤ key second) ↔
      ∀ first ∈ elements, ∀ second ∈ elements,
        key first < key second → 0 < compare second first := by
  constructor
  · intro always first firstMem second secondMem less
    by_contra misordered
    obtain ⟨sorted, outcome, unsorted⟩ :=
      exists_qsorted_not_sorted firstMem secondMem less (not_lt.mp misordered)
    exact unsorted (always sorted outcome)
  · intro ordered sorted outcome
    refine outcome.sorted_of_follows ?_ ties
    intro first firstMem second secondMem less
    have positive := ordered first firstMem second secondMem less
    exact ⟨opposed _ _ positive, positive⟩

end DaveCC.Container
