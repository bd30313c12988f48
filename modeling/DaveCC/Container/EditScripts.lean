import Mathlib.Order.Lattice.Nat
import Mathlib.Tactic.Linarith

/-!
# Edit scripts

The distance of two words is the least cost of an edit script between them. The last edit of a
script gives the recurrence, and a row of a table follows from the row before it.
-/

namespace DaveCC.Container

variable {α : Type*}

inductive Edit (α : Type*) where
  | keep (letter : α)
  | delete (letter : α)
  | insert (letter : α)
  | substitute (old new : α)

namespace Edit

def source : Edit α → List α
  | .keep letter | .delete letter => [letter]
  | .insert _ => []
  | .substitute old _ => [old]

def target : Edit α → List α
  | .keep letter | .insert letter => [letter]
  | .delete _ => []
  | .substitute _ new => [new]

def cost : Edit α → ℕ
  | .keep _ => 0
  | .delete _ | .insert _ | .substitute _ _ => 1

def swap : Edit α → Edit α
  | .keep letter => .keep letter
  | .delete letter => .insert letter
  | .insert letter => .delete letter
  | .substitute old new => .substitute new old

end Edit

/-- A script turns a word into another at a cost. -/
def Rewrites (script : List (Edit α)) (word other : List α) (cost : ℕ) : Prop :=
  script.flatMap Edit.source = word ∧ script.flatMap Edit.target = other ∧
    (script.map Edit.cost).sum = cost

/-- The least cost of a script from a word to another. -/
noncomputable def levenshtein (word other : List α) : ℕ :=
  sInf {cost | ∃ script, Rewrites script word other cost}

variable {word other : List α} {script : List (Edit α)} {cost : ℕ}

theorem Rewrites.swap (rewrites : Rewrites script word other cost) :
    Rewrites (script.map Edit.swap) other word cost := by
  have sides (edit : Edit α) : edit.swap.source = edit.target ∧
      edit.swap.target = edit.source ∧ edit.swap.cost = edit.cost := by
    cases edit <;> exact ⟨rfl, rfl, rfl⟩
  obtain ⟨rfl, rfl, rfl⟩ := rewrites
  simp [Rewrites, List.flatMap_map, sides, Function.comp_def]

theorem Rewrites.append (rewrites : Rewrites script word other cost) (edit : Edit α) :
    Rewrites (script ++ [edit]) (word ++ edit.source) (other ++ edit.target) (cost + edit.cost) := by
  obtain ⟨rfl, rfl, rfl⟩ := rewrites
  simp [Rewrites]

theorem exists_rewrites (word other : List α) : ∃ cost script, Rewrites script word other cost := by
  refine ⟨_, word.map .delete ++ other.map .insert, ?_, ?_, rfl⟩
  · simp [Edit.source, List.flatMap_map]
  · simp [Edit.target, List.flatMap_map]

theorem exists_rewrites_levenshtein (word other : List α) :
    ∃ script, Rewrites script word other (levenshtein word other) :=
  Nat.sInf_mem (exists_rewrites word other)

theorem levenshtein_le (rewrites : Rewrites script word other cost) :
    levenshtein word other ≤ cost :=
  Nat.sInf_le ⟨script, rewrites⟩

theorem levenshtein_comm (word other : List α) : levenshtein word other = levenshtein other word := by
  have atMost (word other : List α) : levenshtein word other ≤ levenshtein other word := by
    have ⟨script, rewrites⟩ := exists_rewrites_levenshtein other word
    exact levenshtein_le rewrites.swap
  exact le_antisymm (atMost word other) (atMost other word)

/-- A script does not change the length by more than its cost. -/
theorem Rewrites.length_le (rewrites : Rewrites script word other cost) :
    other.length ≤ word.length + cost := by
  obtain ⟨rfl, rfl, rfl⟩ := rewrites
  induction script with
  | nil => simp
  | cons edit script ih =>
    cases edit <;> simp [Edit.source, Edit.target, Edit.cost] at ih ⊢ <;> omega

theorem length_le_levenshtein (word other : List α) :
    other.length ≤ word.length + levenshtein word other := by
  have ⟨script, rewrites⟩ := exists_rewrites_levenshtein word other
  exact rewrites.length_le

theorem Rewrites.eq_of_cost_zero (rewrites : Rewrites script word other 0) : word = other := by
  obtain ⟨rfl, rfl, free⟩ := rewrites
  induction script with
  | nil => rfl
  | cons edit script ih =>
    cases edit with
    | keep letter => simp_all [Edit.source, Edit.target]
    | delete letter => simp [Edit.cost] at free
    | insert letter => simp [Edit.cost] at free
    | substitute old new => simp [Edit.cost] at free

theorem eq_of_levenshtein_eq_zero (same : levenshtein word other = 0) : word = other := by
  have ⟨script, rewrites⟩ := exists_rewrites_levenshtein word other
  exact (same ▸ rewrites).eq_of_cost_zero

theorem levenshtein_nil (other : List α) : levenshtein [] other = other.length := by
  apply le_antisymm
  · have inserts : Rewrites (other.map .insert) [] other other.length := by
      simp [Rewrites, Edit.source, Edit.target, Edit.cost, Function.comp_def, List.flatMap_map]
    exact levenshtein_le inserts
  · simpa using length_le_levenshtein [] other

variable [DecidableEq α]

/-- The last edit of a least script. -/
theorem levenshtein_concat (word other : List α) (last final : α) :
    levenshtein (word ++ [last]) (other ++ [final]) =
      min (min (levenshtein word (other ++ [final]) + 1) (levenshtein (word ++ [last]) other + 1))
        (levenshtein word other + if last = final then 0 else 1) := by
  apply le_antisymm
  · simp only [le_min_iff]
    refine ⟨⟨?_, ?_⟩, ?_⟩
    · have ⟨script, rewrites⟩ := exists_rewrites_levenshtein word (other ++ [final])
      simpa [Edit.source, Edit.target, Edit.cost] using levenshtein_le (rewrites.append (.delete last))
    · have ⟨script, rewrites⟩ := exists_rewrites_levenshtein (word ++ [last]) other
      simpa [Edit.source, Edit.target, Edit.cost] using levenshtein_le (rewrites.append (.insert final))
    · have ⟨script, rewrites⟩ := exists_rewrites_levenshtein word other
      split
      · next same =>
        rw [← same]
        exact levenshtein_le (rewrites.append (.keep last))
      · exact levenshtein_le (rewrites.append (.substitute last final))
  · have ⟨script, source, target, cost⟩ :=
      exists_rewrites_levenshtein (word ++ [last]) (other ++ [final])
    rw [← cost]
    rcases List.eq_nil_or_concat script with rfl | ⟨front, edit, rfl⟩
    · simp at source
    · simp only [List.concat_eq_append, List.flatMap_append, List.flatMap_singleton,
        List.map_append, List.map_singleton, List.sum_append, List.sum_singleton] at source target ⊢
      cases edit with
      | keep letter =>
        have ⟨before, isLast⟩ := List.append_inj' source rfl
        have ⟨after, isFinal⟩ := List.append_inj' target rfl
        rw [if_pos (List.cons.inj (isLast.symm.trans isFinal)).1]
        exact (min_le_right _ _).trans (levenshtein_le ⟨before, after, rfl⟩)
      | delete letter =>
        have before := (List.append_inj' source rfl).1
        have bound := levenshtein_le ⟨before, (List.append_nil _).symm.trans target, rfl⟩
        exact (min_le_left _ _).trans ((min_le_left _ _).trans (Nat.add_le_add_right bound 1))
      | insert letter =>
        have after := (List.append_inj' target rfl).1
        have bound := levenshtein_le ⟨(List.append_nil _).symm.trans source, after, rfl⟩
        exact (min_le_left _ _).trans ((min_le_right _ _).trans (Nat.add_le_add_right bound 1))
      | substitute old new =>
        have before := (List.append_inj' source rfl).1
        have after := (List.append_inj' target rfl).1
        have bound := levenshtein_le ⟨before, after, rfl⟩
        apply (min_le_right _ _).trans (Nat.add_le_add bound _)
        split
        · exact Nat.zero_le _
        · exact le_refl _

theorem lt_levenshtein_concat {bound : ℕ} (last : α)
    (above : ∀ front, front <+: other → bound < levenshtein word front) :
    ∀ front, front <+: other → bound < levenshtein (word ++ [last]) front := by
  intro front isFront
  induction front using List.reverseRecOn with
  | nil =>
    have empty := above [] isFront
    rw [levenshtein_comm, levenshtein_nil] at empty ⊢
    simpa using Nat.lt_succ_of_lt empty
  | append_singleton front letter ih =>
    have within : front <+: other := (List.prefix_append _ _).trans isFront
    have vertical := above _ isFront
    have diagonal := above _ within
    have horizontal := ih within
    rw [levenshtein_concat]
    omega

/-- A word is at least as far from another as its beginning from all beginnings of the other. -/
theorem lt_levenshtein_append {bound : ℕ} (rest : List α)
    (above : ∀ front, front <+: other → bound < levenshtein word front) :
    bound < levenshtein (word ++ rest) other := by
  induction rest generalizing word with
  | nil => simpa using above other (List.prefix_refl _)
  | cons letter rest ih =>
    rw [← List.singleton_append, ← List.append_assoc]
    exact ih (lt_levenshtein_concat letter above)

end DaveCC.Container
