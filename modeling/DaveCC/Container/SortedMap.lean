import Mathlib.Data.List.Basic

/-!
# Maps as sorted vectors

A map keeps its entries in a vector sorted by a comparison function. It inserts by linear
search while it is small and by binary search after that, and finds an entry whose key
compares equal to the one looked for. Keys that compare equal are one key: the map is a
function on their classes.
-/

namespace DaveCC.Container

universe u v

/-- The entries of a map. -/
structure SortedMap (Key : Type u) (Value : Type v) where
  values : List (Key × Value) := []
  deriving Repr

namespace SortedMap

variable {Key : Type u} {Value : Type v} (compare : Key → Key → Ordering)

/-- The value of the entry that a search of the sorted vector finds. -/
def find (map : SortedMap Key Value) (key : Key) : Option Value :=
  (map.values.find? fun entry => compare key entry.1 == .eq).map Prod.snd

/-- Insert before the first entry with a larger key, or replace the value of an entry
with the same key. -/
def linearInsert (key : Key) (value : Value) : List (Key × Value) → List (Key × Value)
  | [] => [(key, value)]
  | entry :: rest =>
    match compare key entry.1 with
    | .eq => (entry.1, value) :: rest
    | .lt => (key, value) :: entry :: rest
    | .gt => entry :: linearInsert key value rest

/-- Binary search between two indices: whether the key is there, and where it is or
belongs. -/
def findLocation (values : List (Key × Value)) (key : Key) (low high : ℕ) : Bool × ℕ :=
  if low < high then
    let mid := low + (high - low) / 2
    match values[mid]? with
    | none => (false, high)
    | some entry =>
      match compare key entry.1 with
      | .eq => (true, mid)
      | .lt => findLocation values key low mid
      | .gt => findLocation values key (mid + 1) high
  else (false, high)
termination_by high - low

def binaryInsert (key : Key) (value : Value) (values : List (Key × Value)) :
    List (Key × Value) :=
  match findLocation compare values key 0 values.length with
  | (true, index) => values.modify index fun entry => (entry.1, value)
  | (false, index) => values.take index ++ (key, value) :: values.drop index

/-- Insert the value, sorted by key, or replace the value that the key has. -/
def insert (map : SortedMap Key Value) (key : Key) (value : Value) : SortedMap Key Value :=
  if map.values.length < 5 then ⟨linearInsert compare key value map.values⟩
  else ⟨binaryInsert compare key value map.values⟩

/-- The entries are sorted by key. -/
def Sorted (map : SortedMap Key Value) : Prop :=
  map.values.Pairwise fun first second => compare first.1 second.1 = .lt

/-- An insertion replaces the value of an entry with the same key, or puts the new entry
between the smaller and the larger keys. -/
inductive Inserts (key : Key) (value : Value) :
    List (Key × Value) → List (Key × Value) → Prop where
  | replace (front : List (Key × Value)) {back : List (Key × Value)} {entry : Key × Value}
      (same : compare key entry.1 = .eq) :
      Inserts key value (front ++ entry :: back) (front ++ (entry.1, value) :: back)
  | between (front : List (Key × Value)) {back : List (Key × Value)}
      (smaller : ∀ entry ∈ front, compare key entry.1 = .gt)
      (larger : ∀ entry ∈ back, compare key entry.1 = .lt) :
      Inserts key value (front ++ back) (front ++ (key, value) :: back)

variable {compare}

theorem Inserts.cons {key : Key} {value : Value} {entry : Key × Value}
    {values result : List (Key × Value)} (inserts : Inserts compare key value values result)
    (smaller : compare key entry.1 = .gt) :
    Inserts compare key value (entry :: values) (entry :: result) := by
  cases inserts with
  | replace front same => exact .replace (entry :: front) same
  | between front smallerFront larger =>
    apply Inserts.between (entry :: front) _ larger
    intro other inside
    rcases List.mem_cons.mp inside with rfl | inside
    · exact smaller
    · exact smallerFront other inside

variable [Std.TransCmp compare]

variable {values : List (Key × Value)}

theorem inserts_linearInsert (key : Key) (value : Value)
    (sorted : values.Pairwise fun first second => compare first.1 second.1 = .lt) :
    Inserts compare key value values (linearInsert compare key value values) := by
  induction values with
  | nil => exact .between [] (by simp) (by simp)
  | cons entry rest ih =>
    have ⟨above, sortedRest⟩ := List.pairwise_cons.mp sorted
    unfold linearInsert
    cases order : compare key entry.1 with
    | eq => exact .replace [] order
    | gt => exact (ih sortedRest).cons order
    | lt =>
      apply Inserts.between [] (by simp)
      intro other inside
      rcases List.mem_cons.mp inside with rfl | inside
      · exact order
      · exact Std.TransCmp.lt_trans order (above other inside)

/-- The search ends at the key, or where everything before is smaller and everything from
there on is larger. -/
theorem findLocation_spec {key : Key} {low high : ℕ}
    (sorted : values.Pairwise fun first second => compare first.1 second.1 = .lt)
    (ordered : low ≤ high) (inside : high ≤ values.length)
    (smaller : ∀ index entry, index < low → values[index]? = some entry → compare key entry.1 = .gt)
    (larger : ∀ index entry, high ≤ index → values[index]? = some entry →
      compare key entry.1 = .lt) :
    (∃ index entry, findLocation compare values key low high = (true, index) ∧
      values[index]? = some entry ∧ compare key entry.1 = .eq) ∨
    ∃ index, findLocation compare values key low high = (false, index) ∧ index ≤ values.length ∧
      (∀ other entry, other < index → values[other]? = some entry → compare key entry.1 = .gt) ∧
      ∀ other entry, index ≤ other → values[other]? = some entry →
        compare key entry.1 = .lt := by
  have above : ∀ {first second : ℕ} {entry other : Key × Value}, first < second →
      values[first]? = some entry → values[second]? = some other →
      compare entry.1 other.1 = .lt := by
    intro first second entry other before found foundOther
    obtain ⟨firstInside, rfl⟩ := List.getElem?_eq_some_iff.mp found
    obtain ⟨secondInside, rfl⟩ := List.getElem?_eq_some_iff.mp foundOther
    exact List.pairwise_iff_getElem.mp sorted first second firstInside secondInside before
  induction low, high using findLocation.induct compare values key with
  | case1 low high continues mid missing =>
    have := List.getElem?_eq_none_iff.mp missing
    omega
  | case2 low high continues mid entry found order =>
    refine .inl ⟨mid, entry, ?_, found, order⟩
    unfold findLocation
    simp only [if_pos continues, mid, found, order]
  | case3 low high continues mid entry found order ih =>
    have next : findLocation compare values key low high =
        findLocation compare values key low mid := by
      conv => lhs; unfold findLocation
      simp only [if_pos continues, mid, found, order]
    rw [next]
    apply ih (by omega) (by omega) smaller
    intro index other after foundOther
    rcases Nat.eq_or_lt_of_le after with rfl | after
    · rw [found] at foundOther
      cases foundOther
      exact order
    · exact Std.TransCmp.lt_trans order (above after found foundOther)
  | case4 low high continues mid entry found order ih =>
    have next : findLocation compare values key low high =
        findLocation compare values key (mid + 1) high := by
      conv => lhs; unfold findLocation
      simp only [if_pos continues, mid, found, order]
    rw [next]
    apply ih (by omega) (by omega) _ larger
    intro index other before foundOther
    rcases Nat.eq_or_lt_of_le (Nat.le_of_lt_succ before) with rfl | before
    · rw [found] at foundOther
      cases foundOther
      exact order
    · exact Std.OrientedCmp.gt_of_lt (Std.TransCmp.lt_trans
        (above before foundOther found) (Std.OrientedCmp.lt_of_gt order))
  | case5 low high done =>
    refine .inr ⟨high, ?_, inside, ?_, larger⟩
    · unfold findLocation
      exact if_neg done
    · intro other entry before found
      exact smaller other entry (by omega) found

theorem inserts_binaryInsert (key : Key) (value : Value)
    (sorted : values.Pairwise fun first second => compare first.1 second.1 = .lt) :
    Inserts compare key value values (binaryInsert compare key value values) := by
  have none_before : ∀ index entry, index < 0 → values[index]? = some entry →
      compare key entry.1 = .gt := fun _ _ impossible => absurd impossible (Nat.not_lt_zero _)
  have none_after : ∀ index entry, values.length ≤ index → values[index]? = some entry →
      compare key entry.1 = .lt := by
    intro index entry outside found
    rw [List.getElem?_eq_none outside] at found
    cases found
  unfold binaryInsert
  rcases findLocation_spec sorted (Nat.zero_le _) (Nat.le_refl _) none_before none_after with
    ⟨index, entry, ends, found, same⟩ | ⟨index, ends, inside, smaller, larger⟩
  · rw [ends]
    obtain ⟨inside, rfl⟩ := List.getElem?_eq_some_iff.mp found
    have split : values = values.take index ++ values[index] :: values.drop (index + 1) := by
      rw [List.getElem_cons_drop, List.take_append_drop]
    simp only [List.modify_eq_take_cons_drop inside]
    conv => lhs; rw [split]
    exact .replace _ same
  · rw [ends]
    conv => lhs; rw [← List.take_append_drop index values]
    apply Inserts.between
    · intro entry member
      obtain ⟨other, before, rfl⟩ := List.mem_take_iff_getElem.mp member
      exact smaller other _ (by omega) (List.getElem?_eq_getElem _)
    · intro entry member
      obtain ⟨other, before, rfl⟩ := List.mem_drop_iff_getElem.mp member
      exact larger (index + other) _ (Nat.le_add_right _ _) (List.getElem?_eq_getElem _)

variable {map : SortedMap Key Value}

theorem inserts_insert (sorted : map.Sorted compare) (key : Key) (value : Value) :
    Inserts compare key value map.values (map.insert compare key value).values := by
  unfold insert
  split
  · exact inserts_linearInsert key value sorted
  · exact inserts_binaryInsert key value sorted

/-! ## Rules -/

omit [Std.TransCmp compare] in
theorem sorted_empty : (⟨[]⟩ : SortedMap Key Value).Sorted compare :=
  .nil

omit [Std.TransCmp compare] in
theorem find_empty (key : Key) : (⟨[]⟩ : SortedMap Key Value).find compare key = none :=
  rfl

theorem sorted_insert (sorted : map.Sorted compare) (key : Key) (value : Value) :
    (map.insert compare key value).Sorted compare := by
  have inserts := inserts_insert sorted key value
  unfold Sorted at sorted ⊢
  generalize (map.insert compare key value).values = result at inserts
  generalize map.values = values at sorted inserts
  cases inserts with
  | @replace front _ entry same =>
    rw [List.pairwise_append, List.pairwise_cons] at sorted ⊢
    have ⟨sortedFront, ⟨above, sortedBack⟩, across⟩ := sorted
    refine ⟨sortedFront, ⟨above, sortedBack⟩, ?_⟩
    intro first inFront second inBack
    rcases List.mem_cons.mp inBack with rfl | inBack
    · exact across first inFront entry List.mem_cons_self
    · exact across first inFront second (List.mem_cons_of_mem _ inBack)
  | between front smaller larger =>
    rw [List.pairwise_append] at sorted
    rw [List.pairwise_append, List.pairwise_cons]
    have ⟨sortedFront, sortedBack, across⟩ := sorted
    refine ⟨sortedFront, ⟨larger, sortedBack⟩, ?_⟩
    intro first inFront second inBack
    rcases List.mem_cons.mp inBack with rfl | inBack
    · exact Std.OrientedCmp.lt_of_gt (smaller first inFront)
    · exact across first inFront second inBack

/-- A search for a key passes over the entries with smaller keys. -/
theorem find?_of_smaller {key other : Key} {front : List (Key × Value)}
    (smaller : ∀ entry ∈ front, compare key entry.1 = .gt) (same : compare other key = .eq) :
    front.find? (fun entry => compare other entry.1 == .eq) = none := by
  rw [List.find?_eq_none]
  intro entry inFront
  rw [Std.TransCmp.congr_left same, smaller entry inFront]
  decide

/-- The inserted value is found under every key that compares equal, and nothing else
changes. -/
theorem find_insert (sorted : map.Sorted compare) (key other : Key) (value : Value) :
    (map.insert compare key value).find compare other =
      if compare other key = .eq then some value else map.find compare other := by
  have inserts := inserts_insert sorted key value
  unfold find
  unfold Sorted at sorted
  generalize (map.insert compare key value).values = result at inserts
  generalize map.values = values at sorted inserts
  cases inserts with
  | @replace front back entry same =>
    have equal : compare other entry.1 = compare other key :=
      (Std.TransCmp.congr_right same).symm
    have smaller : ∀ first ∈ front, compare key first.1 = .gt := by
      intro first inFront
      rw [Std.TransCmp.congr_left same]
      exact Std.OrientedCmp.gt_of_lt
        ((List.pairwise_append.mp sorted).2.2 first inFront entry List.mem_cons_self)
    simp only [List.find?_append, List.find?_cons, equal]
    split_ifs with found
    · rw [find?_of_smaller smaller found, found]
      rfl
    · rw [beq_false_of_ne found]
  | between front smaller larger =>
    simp only [List.find?_append, List.find?_cons]
    split_ifs with found
    · rw [find?_of_smaller smaller found, found]
      rfl
    · rw [beq_false_of_ne found]

end SortedMap

end DaveCC.Container
