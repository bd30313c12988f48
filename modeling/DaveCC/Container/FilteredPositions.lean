import Mathlib.Data.List.Basic
import Mathlib.Data.Nat.Init

/-!
# Positions in a filtered list

A list of results that skips the items without one. Removing the result of an item by
the position of the item takes away the right result only where the two positions
have not drifted apart, or where they hold the same result.
-/

namespace DaveCC.Container

variable {α β : Type*}

/-- The result at the position of the item is its own, or an equal one with nothing else
between, and an item without a result has a position that is past all results. -/
def InPosition [DecidableEq α] (results : α → Option β) (items : List α) (item : α) : Prop :=
  match results item with
  | none => (items.filterMap results).length ≤ items.idxOf item
  | some result =>
    ∀ position, ((items.take (items.idxOf item)).filterMap results).length ≤ position →
      position ≤ items.idxOf item → (items.filterMap results)[position]? = some result

/-- Erasing at two positions leaves one list when it is constant between them. -/
theorem eraseIdx_eq_eraseIdx_iff {list : List β} {value : β} {first last : ℕ}
    (ordered : first ≤ last) (here : list[first]? = some value) :
    list.eraseIdx last = list.eraseIdx first ↔
      ∀ position, first ≤ position → position ≤ last → list[position]? = some value := by
  constructor
  · intro same position least most
    induction position, least using Nat.le_induction with
    | base => exact here
    | succ position least ih =>
      have shifted := congrArg (·[position]?) same
      simp only [List.getElem?_eraseIdx, Nat.lt_of_succ_le most, Nat.not_lt.mpr least,
        if_true, if_false] at shifted
      exact shifted.symm.trans (ih (Nat.le_of_succ_le most))
  · intro constant
    apply List.ext_getElem?
    intro position
    rw [List.getElem?_eraseIdx, List.getElem?_eraseIdx]
    rcases Nat.lt_or_ge position first with before | least
    · rw [if_pos before, if_pos (Nat.lt_of_lt_of_le before ordered)]
    rcases Nat.lt_or_ge position last with between | after
    · rw [if_pos between, if_neg (Nat.not_lt.mpr least), constant position least (Nat.le_of_lt
        between), constant (position + 1) (Nat.le_succ_of_le least) between]
    · rw [if_neg (Nat.not_lt.mpr after), if_neg (Nat.not_lt.mpr least)]

variable {results : α → Option β} {items : List α} {item : α}

/-- The results of the other items remain exactly when the item is in position. -/
theorem eraseIdx_filterMap_iff [DecidableEq α] (listed : item ∈ items) :
    (items.filterMap results).eraseIdx (items.idxOf item) = (items.erase item).filterMap results ↔
      InPosition results items item := by
  rcases List.eq_append_cons_of_mem listed with ⟨front, back, rfl, outside⟩
  have index : (front ++ item :: back).idxOf item = front.length := by
    rw [List.idxOf_append_of_notMem outside, List.idxOf_cons_self, Nat.add_zero]
  have others : (front ++ item :: back).erase item = front ++ back := by
    rw [List.erase_append_right _ outside, List.erase_cons_head]
  rw [InPosition, index, others, List.take_left' rfl, List.filterMap_append, List.filterMap_append]
  cases has : results item with
  | none =>
    rw [List.filterMap_cons_none has]
    exact List.eraseIdx_eq_self
  | some result =>
    rw [List.filterMap_cons_some has]
    have own : (front.filterMap results ++ back.filterMap results) =
        (front.filterMap results ++ result :: back.filterMap results).eraseIdx
          (front.filterMap results).length := by
      rw [List.eraseIdx_append_of_length_le (Nat.le_refl _), Nat.sub_self]
      rfl
    rw [own]
    exact eraseIdx_eq_eraseIdx_iff (List.length_filterMap_le ..) (by simp)

/-- Without an item the results are the same exactly when it had none. -/
theorem filterMap_eq_filterMap_erase_iff [DecidableEq α] (listed : item ∈ items) :
    items.filterMap results = (items.erase item).filterMap results ↔ results item = none := by
  rcases List.eq_append_cons_of_mem listed with ⟨front, back, rfl, outside⟩
  rw [List.erase_append_right _ outside, List.erase_cons_head, List.filterMap_append,
    List.filterMap_append]
  cases has : results item with
  | none =>
    rw [List.filterMap_cons_none has]
    simp
  | some result =>
    rw [List.filterMap_cons_some has]
    simp

end DaveCC.Container
