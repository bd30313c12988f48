import Mathlib.Data.List.Infix

/-!
# The longest word that a text begins with

A table gives words a meaning. A search for the first word that the text begins with finds
the longest such word if longer words come first. A text can also be read by position,
where a character that is in no word stands for what is behind its end.
-/

namespace DaveCC.Container

universe u v

variable {α : Type u} {β : Type v}

/-- The entry is one with the longest word that the text begins with. -/
structure IsLongestPrefix (table : List (List α × β)) (text : List α) (entry : List α × β) :
    Prop where
  mem : entry ∈ table
  isPrefix : entry.1 <+: text
  longest : ∀ other ∈ table, other.1 <+: text → other.1.length ≤ entry.1.length

/-- The entry with the first word that the text begins with. -/
def firstPrefix [DecidableEq α] (table : List (List α × β)) (text : List α) :
    Option (List α × β) :=
  match table with
  | [] => none
  | entry :: rest => if entry.1 <+: text then some entry else firstPrefix rest text

/-- Longer words come first. -/
def LongestFirst (table : List (List α × β)) : Prop :=
  table.Pairwise fun before after => after.1.length ≤ before.1.length

instance (table : List (List α × β)) : Decidable (LongestFirst table) :=
  inferInstanceAs (Decidable (List.Pairwise _ table))

variable [DecidableEq α] {table : List (List α × β)} {text : List α} {entry : List α × β}

/-- Nothing is found only if the text begins with no word. -/
theorem not_prefix_of_first_none (missing : firstPrefix table text = none) :
    ∀ entry ∈ table, ¬ entry.1 <+: text := by
  induction table with
  | nil => exact fun _ inside => nomatch inside
  | cons head rest ih =>
    rw [firstPrefix] at missing
    split at missing
    · cases missing
    next notPrefix =>
      intro entry inside
      rcases List.mem_cons.mp inside with rfl | inside
      · exact notPrefix
      · exact ih missing entry inside

/-- If longer words come first, what is found first is longest. -/
theorem isLongestPrefix_of_first (sorted : LongestFirst table)
    (found : firstPrefix table text = some entry) : IsLongestPrefix table text entry := by
  induction table with
  | nil => cases found
  | cons head rest ih =>
    have ⟨above, sortedRest⟩ := List.pairwise_cons.mp sorted
    rw [firstPrefix] at found
    split at found
    next isPrefix =>
      cases found
      refine ⟨List.mem_cons_self, isPrefix, ?_⟩
      intro other inside _
      rcases List.mem_cons.mp inside with rfl | inside
      · exact Nat.le_refl _
      · exact above other inside
    next notPrefix =>
      have ⟨mem, isPrefix, longest⟩ := ih sortedRest found
      refine ⟨List.mem_cons_of_mem _ mem, isPrefix, ?_⟩
      intro other inside prefixOther
      rcases List.mem_cons.mp inside with rfl | inside
      · exact absurd prefixOther notPrefix
      · exact longest other inside prefixOther

omit [DecidableEq α] in
/-- A word by its characters, where one that it does not have ends the text. -/
theorem cons_prefix_iff {pad char : α} (word : List α) (differs : char ≠ pad) (text : List α) :
    char :: word <+: text ↔ text.getD 0 pad = char ∧ word <+: text.drop 1 := by
  cases text with
  | nil => simp [differs.symm]
  | cons head tail => simp [List.cons_prefix_cons, eq_comm]

end DaveCC.Container
