import Mathlib.Data.List.Perm.Basic

/-!
# Hash tables of vectors

A hash table whose entries are vectors of objects: an object is appended to the vector that
the hash of its key selects, and the first object of a key in its vector is found. The
rules say what is found after an insertion and after a change of an object in its place.
-/

namespace DaveCC.Container

universe u v

variable {α : Type u} {κ : Type v}

/-- The first element that satisfies a predicate is changed in its place. -/
def modifyFirst (found : α → Bool) (change : α → α) : List α → List α
  | [] => []
  | value :: rest =>
    if found value then change value :: rest else value :: modifyFirst found change rest

theorem find?_modifyFirst_self {found : α → Bool} {change : α → α}
    (keeps : ∀ value, found value = true → found (change value) = true) (values : List α) :
    (modifyFirst found change values).find? found = (values.find? found).map change := by
  induction values with
  | nil => rfl
  | cons value rest ih =>
    rw [modifyFirst]
    cases isFound : found value with
    | true =>
      rw [if_pos rfl, List.find?_cons_of_pos isFound,
        List.find?_cons_of_pos (keeps value isFound), Option.map_some]
    | false =>
      rw [if_neg Bool.false_ne_true, List.find?_cons_of_neg (ne_true_of_eq_false isFound),
        List.find?_cons_of_neg (ne_true_of_eq_false isFound), ih]

theorem find?_modifyFirst_other {found other : α → Bool} {change : α → α}
    (apart : ∀ value, found value = true → other value = false ∧ other (change value) = false)
    (values : List α) : (modifyFirst found change values).find? other = values.find? other := by
  induction values with
  | nil => rfl
  | cons value rest ih =>
    rw [modifyFirst]
    cases isFound : found value with
    | true =>
      obtain ⟨before, after⟩ := apart value isFound
      rw [if_pos rfl, List.find?_cons_of_neg (ne_true_of_eq_false before),
        List.find?_cons_of_neg (ne_true_of_eq_false after)]
    | false =>
      rw [if_neg Bool.false_ne_true]
      cases isOther : other value with
      | true => rw [List.find?_cons_of_pos isOther, List.find?_cons_of_pos isOther]
      | false =>
        rw [List.find?_cons_of_neg (ne_true_of_eq_false isOther),
          List.find?_cons_of_neg (ne_true_of_eq_false isOther), ih]

/-- `HashTable`, with the hash of a key as its `Hash` and the vectors as its entries. -/
structure HashTable (α : Type u) where
  entries : List (List α)
  objectCount : Nat

namespace HashTable

variable [DecidableEq κ] (key : α → κ) (hash : κ → Nat)

/-- `HashTableInit`. -/
def init (size : Nat) : HashTable α where
  entries := List.replicate size []
  objectCount := 0

/-- The entry that a key selects. -/
def place (table : HashTable α) (wanted : κ) : Nat :=
  hash wanted % table.entries.length

/-- `HashTableInsert`. -/
def insert (value : α) (table : HashTable α) : HashTable α where
  entries := table.entries.modify (table.place hash (key value)) (· ++ [value])
  objectCount := table.objectCount + 1

/-- `HashTableSearch`. -/
def search (wanted : κ) (table : HashTable α) : Option α :=
  (table.entries.getD (table.place hash wanted) []).find? fun value => key value = wanted

/-- A change of the object that a search finds, in its place. -/
def modify (wanted : κ) (change : α → α) (table : HashTable α) : HashTable α :=
  { table with
    entries := table.entries.modify (table.place hash wanted)
      (modifyFirst (fun value => key value = wanted) change) }

variable {key hash} {table : HashTable α} {value : α} {wanted other : κ} {change : α → α}

section Places

omit [DecidableEq κ]

@[simp] theorem length_insert :
    (table.insert key hash value).entries.length = table.entries.length :=
  List.length_modify _ _ _

variable {entries : List (List α)} {index : Nat}

theorem getD_modify {place : Nat} (inside : index < entries.length) (edit : List α → List α) :
    (entries.modify index edit).getD place [] =
      if index = place then edit (entries.getD place []) else entries.getD place [] := by
  rw [List.getD_eq_getElem?_getD, List.getElem?_modify, List.getD_eq_getElem?_getD]
  split
  · next same =>
      subst same
      rw [List.getElem?_eq_getElem inside]
      rfl
  · exact congrArg (Option.getD · []) (congrFun Option.map_id _)

theorem flatten_modify_append (inside : index < entries.length) (value : α) :
    (entries.modify index (· ++ [value])).flatten.Perm (value :: entries.flatten) := by
  induction entries generalizing index with
  | nil => cases inside
  | cons entry entries ih =>
    cases index with
    | zero =>
      rw [List.modify_zero_cons, List.flatten_cons, List.flatten_cons, List.append_assoc]
      exact List.perm_middle
    | succ index =>
      exact ((ih (Nat.lt_of_succ_lt_succ inside)).append_left entry).trans List.perm_middle

theorem place_lt (nonempty : table.entries ≠ []) : table.place hash wanted < table.entries.length :=
  Nat.mod_lt _ (List.length_pos_iff.mpr nonempty)

/-- An insertion adds the object to those of the table. -/
theorem flatten_insert (nonempty : table.entries ≠ []) :
    (table.insert key hash value).entries.flatten.Perm (value :: table.entries.flatten) :=
  flatten_modify_append (place_lt nonempty) value

end Places

@[simp] theorem length_modify :
    (table.modify key hash wanted change).entries.length = table.entries.length :=
  List.length_modify _ _ _

@[simp] theorem search_init {size : Nat} : (init size : HashTable α).search key hash wanted = none := by
  rw [search, init, List.getD_eq_getElem?_getD, List.getElem?_replicate]
  split <;> rfl

/-- After an insertion the new object is found, unless its key was found before. -/
theorem search_insert (nonempty : table.entries ≠ []) :
    (table.insert key hash value).search key hash wanted =
      (table.search key hash wanted).or (if key value = wanted then some value else none) := by
  have places : (table.insert key hash value).place hash wanted = table.place hash wanted := by
    rw [place, length_insert, place]
  rw [search, places, insert, getD_modify (place_lt nonempty), search]
  by_cases same : key value = wanted
  · have found : [value].find? (fun value => decide (key value = wanted)) = some value :=
      List.find?_cons_of_pos (decide_eq_true same)
    rw [if_pos (congrArg (table.place hash) same), if_pos same, List.find?_append, found]
  · have missed : [value].find? (fun value => decide (key value = wanted)) = none :=
      List.find?_cons_of_neg (by simpa using same)
    rw [if_neg same, Option.or_none]
    split
    · rw [List.find?_append, missed, Option.or_none]
    · rfl

/-- After insertions, an object is found if it was found before, or else the first inserted one
of its key. -/
theorem search_foldl_insert (nonempty : table.entries ≠ []) (values : List α) :
    (values.foldl (fun table value => table.insert key hash value) table).search key hash wanted =
      (table.search key hash wanted).or (values.find? fun value => key value = wanted) := by
  induction values generalizing table with
  | nil => rw [List.foldl_nil, List.find?_nil, Option.or_none]
  | cons value values ih =>
    have stillNonempty : (table.insert key hash value).entries ≠ [] := by
      rw [← List.length_pos_iff, length_insert]
      exact List.length_pos_iff.mpr nonempty
    rw [List.foldl_cons, ih stillNonempty, search_insert nonempty, Option.or_assoc]
    congr 1
    rw [List.find?_cons]
    by_cases same : key value = wanted
    · rw [if_pos same, decide_eq_true same, Option.some_or]
    · rw [if_neg same, decide_eq_false same, Option.none_or]

theorem key_of_search (found : table.search key hash wanted = some value) : key value = wanted :=
  of_decide_eq_true (List.find?_some found :)

/-- A change that keeps a key is seen by the searches for this key alone. -/
theorem search_modify (nonempty : table.entries ≠ [])
    (keeps : ∀ value, key value = wanted → key (change value) = wanted) :
    (table.modify key hash wanted change).search key hash other =
      if other = wanted then (table.search key hash other).map change
      else table.search key hash other := by
  have places : (table.modify key hash wanted change).place hash other =
      table.place hash other := by
    rw [place, length_modify, place]
  rw [search, places, modify, getD_modify (place_lt nonempty), search]
  by_cases same : other = wanted
  · subst same
    rw [if_pos rfl, if_pos rfl, find?_modifyFirst_self]
    intro value isFound
    exact decide_eq_true (keeps value (of_decide_eq_true isFound))
  · rw [if_neg same]
    split
    · apply find?_modifyFirst_other
      intro value isWanted
      have isWanted := of_decide_eq_true isWanted
      constructor
      · exact decide_eq_false fun isOther => same (isOther.symm.trans isWanted)
      · exact decide_eq_false fun isOther => same (isOther.symm.trans (keeps value isWanted))
    · rfl

end HashTable

end DaveCC.Container
