import Mathlib.Data.Finset.Card

/-!
# Nested sets

A finite family of sets of which any two are disjoint or strictly nested. The smallest set
around another one is its parent, and the number of sets around a set is its depth.
-/

namespace DaveCC.Container

variable {ι α : Type*} [DecidableEq ι] [DecidableEq α]

/-- Different sets of the family are disjoint or strictly nested. -/
def Nested (indices : Finset ι) (sets : ι → Finset α) : Prop :=
  ∀ first ∈ indices, ∀ second ∈ indices, first ≠ second →
    Disjoint (sets first) (sets second) ∨ sets first ⊂ sets second ∨ sets second ⊂ sets first

/-- The smallest set of the family that strictly contains a set. -/
def IsParent (indices : Finset ι) (sets : ι → Finset α) (child parent : ι) : Prop :=
  parent ∈ indices ∧ sets child ⊂ sets parent ∧
    ∀ other ∈ indices, sets child ⊂ sets other → sets parent ⊆ sets other

/-- The number of sets of the family that contain a set, itself among them. -/
def depth (indices : Finset ι) (sets : ι → Finset α) (index : ι) : Nat :=
  (indices.filter fun other => sets index ⊆ sets other).card

variable {indices : Finset ι} {sets : ι → Finset α} {child parent other first second : ι}
  {member : α}

section

variable (nested : Nested indices sets) (isFirst : first ∈ indices) (isSecond : second ∈ indices)

include nested isFirst isSecond

/-- Two sets with a common member are comparable. -/
theorem Nested.comparable (inFirst : member ∈ sets first) (inSecond : member ∈ sets second) :
    first = second ∨ sets first ⊂ sets second ∨ sets second ⊂ sets first := by
  by_cases same : first = second
  · exact Or.inl same
  · cases nested first isFirst second isSecond same with
    | inl disjoint => exact absurd inSecond (Finset.disjoint_left.mp disjoint inFirst)
    | inr comparable => exact Or.inr comparable

theorem Nested.subset_of_not_ssubset (inFirst : member ∈ sets first)
    (inSecond : member ∈ sets second) (notBelow : ¬ sets second ⊂ sets first) :
    sets first ⊆ sets second := by
  rcases nested.comparable isFirst isSecond inFirst inSecond with same | above | below
  · rw [same]
  · exact above.subset
  · exact absurd below notBelow

/-- Nonempty sets of a nested family are different. -/
theorem Nested.injective (nonempty : (sets first).Nonempty) (same : sets first = sets second) :
    first = second := by
  cases nonempty with
  | intro member inside =>
    rcases nested.comparable isFirst isSecond inside (same ▸ inside) with equal | above | below
    · exact equal
    · exact absurd same above.ne
    · exact absurd same.symm below.ne

end

theorem IsParent.unique (isParent : IsParent indices sets child parent)
    (isOther : IsParent indices sets child other) : sets parent = sets other :=
  Finset.Subset.antisymm (isParent.2.2 other isOther.1 isOther.2.1)
    (isOther.2.2 parent isParent.1 isParent.2.1)

/-- In a nested family the containing set with the fewest members is the parent. -/
theorem Nested.isParent (nested : Nested indices sets) (nonempty : (sets child).Nonempty)
    (isIndex : parent ∈ indices) (contains : sets child ⊂ sets parent)
    (smallest : ∀ other ∈ indices, sets child ⊂ sets other →
      (sets parent).card ≤ (sets other).card) : IsParent indices sets child parent := by
  refine ⟨isIndex, contains, ?_⟩
  intro other isOther around
  cases nonempty with
  | intro member inside =>
    apply nested.subset_of_not_ssubset isIndex isOther (contains.subset inside)
      (around.subset inside)
    intro below
    exact Nat.not_lt_of_le (smallest other isOther around) (Finset.card_lt_card below)

/-- A set is around a child when it is the child's own or around its parent. -/
theorem depth_of_parent (injective : ∀ other ∈ indices, sets other = sets child → other = child)
    (isChild : child ∈ indices) (isParent : IsParent indices sets child parent) :
    depth indices sets child = depth indices sets parent + 1 := by
  have around : (indices.filter fun other => sets child ⊆ sets other) =
      insert child (indices.filter fun other => sets parent ⊆ sets other) := by
    ext other
    simp only [Finset.mem_filter, Finset.mem_insert]
    constructor
    · intro inside
      by_cases same : sets other = sets child
      · exact Or.inl (injective other inside.1 same)
      · have strict : sets child ⊂ sets other :=
          inside.2.ssubset_of_ne fun equal => same equal.symm
        exact Or.inr ⟨inside.1, isParent.2.2 other inside.1 strict⟩
    · intro inside
      cases inside with
      | inl same =>
        rw [same]
        exact ⟨isChild, Finset.Subset.refl _⟩
      | inr above => exact ⟨above.1, isParent.2.1.subset.trans above.2⟩
  rw [depth, around, Finset.card_insert_of_notMem, depth]
  intro inside
  exact isParent.2.1.2 (Finset.mem_filter.mp inside).2

/-- A set with no set around it has depth one. -/
theorem depth_of_outermost (injective : ∀ other ∈ indices, sets other = sets child → other = child)
    (isChild : child ∈ indices) (outermost : ∀ other ∈ indices, ¬ sets child ⊂ sets other) :
    depth indices sets child = 1 := by
  rw [depth, Finset.card_eq_one]
  refine ⟨child, ?_⟩
  ext other
  simp only [Finset.mem_filter, Finset.mem_singleton]
  constructor
  · intro inside
    by_cases same : sets other = sets child
    · exact injective other inside.1 same
    · exact absurd (inside.2.ssubset_of_ne fun equal => same equal.symm) (outermost other inside.1)
  · intro same
    rw [same]
    exact ⟨isChild, Finset.Subset.refl _⟩

theorem depth_lt_of_ssubset (isIndex : first ∈ indices) (below : sets first ⊂ sets second) :
    depth indices sets second < depth indices sets first := by
  apply Finset.card_lt_card
  constructor
  · intro other inside
    have ⟨isOther, around⟩ := Finset.mem_filter.mp inside
    exact Finset.mem_filter.mpr ⟨isOther, below.subset.trans around⟩
  · intro subset
    have inside := subset (Finset.mem_filter.mpr ⟨isIndex, Finset.Subset.refl _⟩)
    exact below.2 (Finset.mem_filter.mp inside).2

end DaveCC.Container
