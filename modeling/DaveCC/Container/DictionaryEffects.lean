import DaveCC.Container.Dictionary

/-!
# What the loops over dictionaries do

Both ways of inserting into a sorted vector give the same vector, and inserting an entry
that is there changes nothing. So a loop over a container that is also its result reads
what it would read otherwise. The loops are described by what a search finds afterwards.
-/

namespace DaveCC.Container

universe u v

variable {Key : Type u} {Value : Type v} {compare : Key → Key → Ordering}

namespace SortedMap

variable [Std.TransCmp compare]

/-- The vector after an insertion, by the keys that are smaller and larger. -/
def inserted (compare : Key → Key → Ordering) (key : Key) (value : Value)
    (values : List (Key × Value)) : List (Key × Value) :=
  values.filter (fun entry => compare key entry.1 == .gt) ++
    (((values.find? fun entry => compare key entry.1 == .eq).elim key Prod.fst, value) ::
      values.filter (fun entry => compare key entry.1 == .lt))

section

variable {values : List (Key × Value)} {key : Key} {order : Ordering}
  (all : ∀ entry ∈ values, compare key entry.1 = order)

include all

theorem filter_of_forall (other : Ordering) :
    values.filter (fun entry => compare key entry.1 == other) =
      if order = other then values else [] := by
  split
  next same =>
    rw [List.filter_eq_self]
    intro entry inside
    rw [all entry inside, same]
    exact beq_self_eq_true _
  next differ =>
    rw [List.filter_eq_nil_iff]
    intro entry inside
    rw [all entry inside, beq_iff_eq]
    exact differ

theorem find?_of_forall (differs : order ≠ .eq) :
    values.find? (fun entry => compare key entry.1 == .eq) = none := by
  rw [List.find?_eq_none]
  intro entry inside
  rw [all entry inside, beq_iff_eq]
  exact differs

end

theorem Inserts.eq_inserted {key : Key} {value : Value} {values result : List (Key × Value)}
    (sorted : AscendingBy compare values) (inserts : Inserts compare key value values result) :
    result = inserted compare key value values := by
  cases inserts with
  | @replace front back entry same =>
    obtain ⟨-, sortedBack, across⟩ := List.pairwise_append.mp sorted
    have above := (List.pairwise_cons.mp sortedBack).1
    have smaller : ∀ other ∈ front, compare key other.1 = .gt := by
      intro other inFront
      rw [Std.TransCmp.congr_left same]
      exact Std.OrientedCmp.gt_of_lt (across other inFront entry List.mem_cons_self)
    have larger : ∀ other ∈ back, compare key other.1 = .lt := by
      intro other inBack
      rw [Std.TransCmp.congr_left same]
      exact above other inBack
    have smallerNot : (Ordering.gt = Ordering.lt) = False := by simp
    have largerNot : (Ordering.lt = Ordering.gt) = False := by simp
    simp only [inserted, List.filter_append, List.filter_cons, List.find?_append,
      List.find?_cons, filter_of_forall smaller, filter_of_forall larger,
      find?_of_forall smaller (by decide), same, smallerNot, largerNot, if_true, if_false]
    simp
  | @between front back smaller larger =>
    have smallerNot : (Ordering.gt = Ordering.lt) = False := by simp
    have largerNot : (Ordering.lt = Ordering.gt) = False := by simp
    simp only [inserted, List.filter_append, List.find?_append, filter_of_forall smaller,
      filter_of_forall larger, find?_of_forall smaller (by decide),
      find?_of_forall larger (by decide), smallerNot, largerNot, if_true, if_false]
    simp

/-- The linear and the binary search insert at the same place. -/
theorem linearInsert_eq_binaryInsert {values : List (Key × Value)}
    (sorted : AscendingBy compare values) (key : Key) (value : Value) :
    linearInsert compare key value values = binaryInsert compare key value values := by
  rw [(inserts_linearInsert key value sorted).eq_inserted sorted,
    (inserts_binaryInsert key value sorted).eq_inserted sorted]

/-- Inserting an entry that is there, under a key that compares equal, changes nothing. -/
theorem insert_of_mem {map : SortedMap Key Value} (sorted : map.Sorted compare) {key : Key}
    {entry : Key × Value} (inside : entry ∈ map.values) (same : compare key entry.1 = .eq) :
    map.insert compare key entry.2 = map := by
  obtain ⟨front, back, split⟩ := List.append_of_mem inside
  have kept : Inserts compare key entry.2 map.values map.values := by
    have replaced := @Inserts.replace _ _ compare key entry.2 front back entry same
    rwa [← split] at replaced
  have result := (inserts_insert sorted key entry.2).eq_inserted sorted
  rw [← kept.eq_inserted sorted] at result
  cases map
  cases h : insert compare ⟨_⟩ key entry.2
  rw [h] at result
  exact congrArg SortedMap.mk result

end SortedMap

open SortedMap

/-- Inserting into one of several sorted containers. -/
theorem sorted_update_insert [Std.TransCmp compare] {maps : SortedMaps Key Value}
    (sorted : ∀ map, (maps map).Sorted compare) (dest : ℕ) (key : Key) (value : Value) (map : ℕ) :
    (Function.update maps dest ((maps dest).insert compare key value) map).Sorted compare := by
  rcases eq_or_ne map dest with rfl | ne
  · rw [Function.update_self]
    exact sorted_insert (sorted map) key value
  · rw [Function.update_of_ne ne]
    exact sorted map

/-- The containers are sorted, and searches find what the dictionaries have. -/
structure Represents (compare : Key → Key → Ordering) (maps : SortedMaps Key Value)
    (dictionaries : ℕ → Key → Option Value) : Prop where
  sorted : ∀ map, (maps map).Sorted compare
  find : ∀ map key, (maps map).find compare key = dictionaries map key

/-- Bind a key, and every key that compares equal, to a value or to nothing. -/
def bindKey (compare : Key → Key → Ordering) (dictionary : Key → Option Value) (key : Key)
    (value : Option Value) : Key → Option Value :=
  fun other => if compare other key = .eq then value else dictionary other

namespace Represents

variable [Std.TransCmp compare] {maps : SortedMaps Key Value}
  {dictionaries : ℕ → Key → Option Value}

omit [Std.TransCmp compare] in
/-- Writing one container. -/
theorem update (represents : Represents compare maps dictionaries) {map : ℕ}
    {written : SortedMap Key Value} {dictionary : Key → Option Value}
    (sorted : written.Sorted compare) (find : ∀ key, written.find compare key = dictionary key) :
    Represents compare (Function.update maps map written)
      (Function.update dictionaries map dictionary) := by
  constructor
  · intro other
    rcases eq_or_ne other map with rfl | ne
    · rwa [Function.update_self]
    · rw [Function.update_of_ne ne]
      exact represents.sorted other
  · intro other key
    rcases eq_or_ne other map with rfl | ne
    · rw [Function.update_self, Function.update_self, find]
    · rw [Function.update_of_ne ne, Function.update_of_ne ne, represents.find]

theorem insert (represents : Represents compare maps dictionaries) (map : ℕ) (key : Key)
    (value : Value) :
    Represents compare (Function.update maps map ((maps map).insert compare key value))
      (Function.update dictionaries map (bindKey compare (dictionaries map) key (some value))) := by
  apply represents.update (sorted_insert (represents.sorted map) key value)
  intro other
  rw [find_insert (represents.sorted map), represents.find]
  rfl

theorem remove (represents : Represents compare maps dictionaries) (map : ℕ) (key : Key) :
    Represents compare (Function.update maps map ((maps map).mapRemove compare key).2)
      (Function.update dictionaries map (bindKey compare (dictionaries map) key none)) := by
  obtain ⟨-, sorted, find⟩ := mapRemove_spec (represents.sorted map) key
  apply represents.update sorted
  intro other
  rw [find, represents.find]
  rfl

/-- Every entry of a container is inserted into another one, or into itself. -/
theorem insertAll (represents : Represents compare maps dictionaries) (dest src : ℕ) :
    Represents compare (insertAll compare maps dest src)
      (Function.update dictionaries dest fun key =>
        (dictionaries src key).or (dictionaries dest key)) := by
  obtain ⟨step, isFold, inserts⟩ : ∃ step, Container.insertAll compare maps dest src =
      (List.range (maps src).values.length).foldl step maps ∧
      ∀ before index entry, (before src).values[index]? = some entry → step before index =
        Function.update before dest ((before dest).insert compare entry.1 entry.2) :=
    ⟨_, rfl, fun before index entry found => by simp only [found]⟩
  rw [isFold]
  suffices loop : ∀ count, count ≤ (maps src).values.length →
      let after := (List.range count).foldl step maps
      (∀ other, other ≠ dest → after other = maps other) ∧ (dest = src → after = maps) ∧
        (after dest).Sorted compare ∧
        ∀ key, (after dest).find compare key =
          ((SortedMap.mk ((maps src).values.take count)).find compare key).or
            ((maps dest).find compare key) by
    obtain ⟨others, -, sorted, find⟩ := loop _ (Nat.le_refl _)
    rw [List.take_length] at find
    have written : (List.range (maps src).values.length).foldl step maps =
        Function.update maps dest
          ((List.range (maps src).values.length).foldl step maps dest) := by
      funext other
      rcases eq_or_ne other dest with rfl | ne
      · rw [Function.update_self]
      · rw [Function.update_of_ne ne]
        exact others other ne
    rw [written]
    apply represents.update sorted
    intro key
    rw [← represents.find, ← represents.find]
    exact find key
  intro count
  induction count with
  | zero => exact fun _ => ⟨fun _ _ => rfl, fun _ => rfl, represents.sorted dest, fun _ => rfl⟩
  | succ count ih =>
    intro bounded
    obtain ⟨others, same, sorted, find⟩ := ih (Nat.le_of_succ_le bounded)
    rw [List.range_succ, List.foldl_append, List.foldl_cons, List.foldl_nil]
    generalize List.foldl _ maps (List.range count) = before at others same sorted find
    have unread : before src = maps src := by
      rcases eq_or_ne src dest with rfl | ne
      · rw [same rfl]
      · exact others src ne
    have found : (maps src).values[count]? = some (maps src).values[count] :=
      List.getElem?_eq_getElem bounded
    rw [inserts _ _ _ (by rw [unread, found])]
    generalize (maps src).values[count] = entry at found
    have inside : entry ∈ (maps src).values := List.mem_of_getElem? found
    refine ⟨?_, ?_, ?_, ?_⟩
    · intro other ne
      rw [Function.update_of_ne ne, others other ne]
    · rintro rfl
      rw [same rfl, insert_of_mem (represents.sorted dest) inside
        Std.ReflCmp.compare_self, Function.update_eq_self]
    · rw [Function.update_self]
      exact sorted_insert sorted entry.1 entry.2
    · intro key
      rw [Function.update_self, find_insert sorted, find]
      simp only [SortedMap.find, List.take_add_one, found, Option.toList_some, List.find?_append]
      cases order : compare key entry.1 with
      | eq =>
        have absent : ((maps src).values.take count).find?
            (fun entry => compare key entry.1 == .eq) = none := by
          rw [List.find?_eq_none]
          intro other inFront equal
          obtain ⟨position, before, rfl⟩ := List.mem_take_iff_getElem.mp inFront
          obtain ⟨countLt, rfl⟩ := List.getElem?_eq_some_iff.mp found
          have less := List.pairwise_iff_getElem.mp (represents.sorted src) position count
            (by omega) countLt (by omega)
          rw [beq_iff_eq, Std.TransCmp.congr_left order] at equal
          rw [Std.OrientedCmp.gt_of_lt less] at equal
          cases equal
        simp [absent, order]
      | lt => simp [order]
      | gt => simp [order]

theorem union {sets : SortedMaps Key Unit} {dictionaries : ℕ → Key → Option Unit}
    (represents : Represents compare sets dictionaries) (set1 set2 result : ℕ) :
    Represents compare (setUnion compare sets set1 set2 result)
      (Function.update dictionaries result fun key =>
        (dictionaries set1 key).or ((dictionaries set2 key).or (dictionaries result key))) := by
  have both := (represents.insertAll result set1).insertAll result set2
  rw [Function.update_self, Function.update_idem] at both
  have same : (fun key => (dictionaries set1 key).or
        ((dictionaries set2 key).or (dictionaries result key))) =
      fun key => (Function.update dictionaries result
        (fun key => (dictionaries set1 key).or (dictionaries result key)) set2 key).or
          ((dictionaries set1 key).or (dictionaries result key)) := by
    funext key
    rcases eq_or_ne set2 result with rfl | ne
    · rw [Function.update_self]
      cases dictionaries set1 key <;> cases dictionaries set2 key <;> rfl
    · rw [Function.update_of_ne ne]
      cases dictionaries set1 key <;> cases dictionaries set2 key <;> rfl
  rw [same]
  exact both

end Represents

/-! ## Intersections -/

/-- A key that both of two sets have. -/
def bothHave (first second : Option Unit) : Option Unit := first.bind fun _ => second

theorem bothHave_none (first : Option Unit) : bothHave first none = none := by
  cases first <;> rfl

theorem bothHave_comm (first second : Option Unit) :
    bothHave first second = bothHave second first := by
  cases first <;> cases second <;> rfl

namespace SortedMap

theorem find_cons (entry : Key × Value) (rest : List (Key × Value)) (key : Key) :
    (SortedMap.mk (entry :: rest)).find compare key = if compare key entry.1 = .eq then some entry.2
      else (SortedMap.mk rest).find compare key := by
  simp only [SortedMap.find, List.find?_cons]
  cases compare key entry.1 <;> rfl

theorem find_of_below {values : List (Key × Value)} {key : Key}
    (below : ∀ entry ∈ values, compare key entry.1 = .lt) :
    (SortedMap.mk values).find compare key = none := by
  apply find_eq_none
  intro entry inside same
  rw [below entry inside] at same
  cases same

variable {rest others : List (Key × Unit)}

/-- The first of two sorted vectors' entries that is smaller than the other is not common. -/
theorem bothHave_of_lt [Std.TransCmp compare] {entry other : Key × Unit}
    (sorted : AscendingBy compare (other :: others)) (less : compare entry.1 other.1 = .lt)
    (key : Key) :
    bothHave ((SortedMap.mk (entry :: rest)).find compare key)
        ((SortedMap.mk (other :: others)).find compare key) =
      bothHave ((SortedMap.mk rest).find compare key)
        ((SortedMap.mk (other :: others)).find compare key) := by
  rw [find_cons]
  split
  next same =>
    have below : ∀ later ∈ other :: others, compare key later.1 = .lt := by
      intro later inside
      rw [Std.TransCmp.congr_left same]
      rcases List.mem_cons.mp inside with rfl | inside
      · exact less
      · exact Std.TransCmp.lt_trans less ((List.pairwise_cons.mp sorted).1 later inside)
    rw [find_of_below below, bothHave_none, bothHave_none]
  next => rfl

/-- An entry that both begin with is common, whatever else is. -/
theorem bothHave_of_eq [Std.TransCmp compare] {entry other : Key × Unit}
    (same : compare entry.1 other.1 = .eq) (key : Key) :
    bothHave ((SortedMap.mk (entry :: rest)).find compare key)
        ((SortedMap.mk (other :: others)).find compare key) =
      if compare key entry.1 = .eq then some ()
      else bothHave ((SortedMap.mk rest).find compare key)
        ((SortedMap.mk others).find compare key) := by
  rw [find_cons, find_cons, Std.TransCmp.congr_right same]
  split <;> rfl

end SortedMap

variable [Std.TransCmp compare]

/-- The loop of the intersection adds what is left of both sets has in common. -/
theorem intersectFrom_spec {set1 set2 result : ℕ} (left i j : ℕ) {sets : SortedMaps Key Unit}
    (sorted : ∀ set, (sets set).Sorted compare)
    (enough : ((sets set1).values.length - i) + ((sets set2).values.length - j) ≤ left) :
    (∀ other, other ≠ result →
      intersectFrom compare set1 set2 result left i j sets other = sets other) ∧
    (intersectFrom compare set1 set2 result left i j sets result).Sorted compare ∧
    ∀ key, (intersectFrom compare set1 set2 result left i j sets result).find compare key =
      (bothHave ((SortedMap.mk ((sets set1).values.drop i)).find compare key)
        ((SortedMap.mk ((sets set2).values.drop j)).find compare key)).or
          ((sets result).find compare key) := by
  induction left generalizing i j sets with
  | zero =>
    have exhausted : (sets set1).values.drop i = [] := by
      rw [List.drop_eq_nil_iff]
      omega
    refine ⟨fun _ _ => rfl, sorted result, ?_⟩
    intro key
    rw [exhausted]
    rfl
  | succ left ih =>
    unfold intersectFrom
    cases foundFirst : (sets set1).values[i]? with
    | none =>
      refine ⟨fun _ _ => rfl, sorted result, ?_⟩
      intro key
      rw [List.drop_eq_nil_iff.mpr (List.getElem?_eq_none_iff.mp foundFirst)]
      rfl
    | some first =>
    cases foundSecond : (sets set2).values[j]? with
    | none =>
      refine ⟨fun _ _ => rfl, sorted result, ?_⟩
      intro key
      rw [List.drop_eq_nil_iff.mpr (List.getElem?_eq_none_iff.mp foundSecond), bothHave_comm]
      rfl
    | some second =>
    obtain ⟨firstLt, isFirst⟩ := List.getElem?_eq_some_iff.mp foundFirst
    obtain ⟨secondLt, isSecond⟩ := List.getElem?_eq_some_iff.mp foundSecond
    have dropFirst : (sets set1).values.drop i = first :: (sets set1).values.drop (i + 1) := by
      rw [List.drop_eq_getElem_cons firstLt, isFirst]
    have dropSecond : (sets set2).values.drop j =
        second :: (sets set2).values.drop (j + 1) := by
      rw [List.drop_eq_getElem_cons secondLt, isSecond]
    have sortedFirst : SortedMap.AscendingBy compare ((sets set1).values.drop i) :=
      (sorted set1).sublist (List.drop_sublist ..)
    have sortedSecond : SortedMap.AscendingBy compare ((sets set2).values.drop j) :=
      (sorted set2).sublist (List.drop_sublist ..)
    rw [dropFirst] at sortedFirst
    rw [dropSecond] at sortedSecond
    cases order : compare first.1 second.1 with
    | lt =>
      obtain ⟨others, sortedAfter, finds⟩ := @ih (i + 1) j sets sorted (by omega)
      simp only [order]
      refine ⟨others, sortedAfter, ?_⟩
      intro key
      rw [finds, dropFirst, dropSecond, bothHave_of_lt sortedSecond order]
    | gt =>
      obtain ⟨others, sortedAfter, finds⟩ := @ih i (j + 1) sets sorted (by omega)
      simp only [order]
      refine ⟨others, sortedAfter, ?_⟩
      intro key
      rw [finds, dropFirst, dropSecond, bothHave_comm, bothHave_comm _ ((SortedMap.mk (second ::
        _)).find compare key), bothHave_of_lt sortedFirst (Std.OrientedCmp.lt_of_gt order)]
    | eq =>
      simp only [order]
      generalize written : Function.update sets result _ = after
      -- A set that is also the result has the entry already.
      have unread1 : after set1 = sets set1 := by
        subst written
        rcases eq_or_ne set1 result with rfl | ne
        · rw [Function.update_self]
          exact insert_of_mem (sorted set1) (List.mem_of_getElem? foundFirst)
            Std.ReflCmp.compare_self
        · rw [Function.update_of_ne ne]
      have unread2 : after set2 = sets set2 := by
        subst written
        rcases eq_or_ne set2 result with rfl | ne
        · rw [Function.update_self]
          exact insert_of_mem (sorted set2) (List.mem_of_getElem? foundSecond) order
        · rw [Function.update_of_ne ne]
      have resultIs : after result = (sets result).insert compare first.1 () := by
        rw [← written, Function.update_self]
      have sortedAll : ∀ set, (after set).Sorted compare := by
        rw [← written]
        exact sorted_update_insert sorted result first.1 ()
      obtain ⟨others, sortedAfter, finds⟩ := @ih (i + 1) (j + 1) after sortedAll (by
        rw [unread1, unread2]
        omega)
      refine ⟨?_, sortedAfter, ?_⟩
      · intro other ne
        rw [others other ne, ← written, Function.update_of_ne ne]
      · intro key
        rw [finds, unread1, unread2, resultIs, find_insert (sorted result),
          dropFirst, dropSecond, bothHave_of_eq order]
        split
        · cases bothHave _ _ <;> rfl
        · rfl

theorem Represents.intersection {sets : SortedMaps Key Unit}
    {dictionaries : ℕ → Key → Option Unit} (represents : Represents compare sets dictionaries)
    (set1 set2 result : ℕ) :
    Represents compare (setIntersection compare sets set1 set2 result)
      (Function.update dictionaries result fun key =>
        (bothHave (dictionaries set1 key) (dictionaries set2 key)).or
          (dictionaries result key)) := by
  have ⟨others, sorted, finds⟩ := @intersectFrom_spec _ _ _ set1 set2 result
    ((sets set1).values.length + (sets set2).values.length) 0 0 sets represents.sorted (by omega)
  have written : setIntersection compare sets set1 set2 result =
      Function.update sets result (setIntersection compare sets set1 set2 result result) := by
    funext other
    rcases eq_or_ne other result with rfl | ne
    · rw [Function.update_self]
    · rw [Function.update_of_ne ne]
      exact others other ne
  rw [written]
  apply represents.update sorted
  intro key
  rw [← represents.find, ← represents.find, ← represents.find]
  exact finds key

end DaveCC.Container

/-!
## Comparators that agree

An operation that is given the elements of some containers makes the same comparisons
with any comparator that agrees on them, so it has the same result.
-/

namespace DaveCC.Container

universe u v

variable {Key : Type u} {Value : Type v} {compare order : Key → Key → Ordering}

namespace SortedMap

section

variable {key : Key} {values : List (Key × Value)}
  (agree : ∀ entry ∈ values, compare key entry.1 = order key entry.1)

include agree

theorem linearInsert_congr (value : Value) :
    linearInsert compare key value values = linearInsert order key value values := by
  induction values with
  | nil => rfl
  | cons entry rest ih =>
    have agreeRest := ih fun other inside => agree other (List.mem_cons_of_mem _ inside)
    simp only [linearInsert, agree entry List.mem_cons_self, agreeRest]

theorem findLocation_congr (low high : ℕ) :
    findLocation compare values key low high = findLocation order values key low high := by
  induction low, high using findLocation.induct order values key with
  | case1 low high continues mid missing =>
    unfold findLocation
    simp only [continues, if_true]
    rw [missing]
  | case2 low high continues mid entry found same =>
    unfold findLocation
    simp only [continues, if_true]
    rw [found]
    simp only [agree entry (List.mem_of_getElem? found), same]
  | case3 low high continues mid entry found less ih =>
    unfold findLocation
    simp only [continues, if_true]
    rw [found]
    simp only [agree entry (List.mem_of_getElem? found), less]
    exact ih
  | case4 low high continues mid entry found more ih =>
    unfold findLocation
    simp only [continues, if_true]
    rw [found]
    simp only [agree entry (List.mem_of_getElem? found), more]
    exact ih
  | case5 low high done =>
    unfold findLocation
    simp only [done, if_false]

theorem binaryInsert_congr (value : Value) :
    binaryInsert compare key value values = binaryInsert order key value values := by
  unfold binaryInsert
  rw [findLocation_congr agree]

end

variable {map : SortedMap Key Value}

theorem insert_congr {key : Key}
    (agree : ∀ entry ∈ map.values, compare key entry.1 = order key entry.1) (value : Value) :
    map.insert compare key value = map.insert order key value := by
  unfold insert
  rw [linearInsert_congr agree, binaryInsert_congr agree]

theorem bsearch_congr {values : List (Key × Value)} {key : Key}
    (agree : ∀ entry ∈ values, compare key entry.1 = order key entry.1) :
    bsearch compare values key = bsearch order values key := by
  unfold bsearch
  rw [findLocation_congr agree]

theorem mapRemove_congr {key : Key}
    (agree : ∀ entry ∈ map.values, compare key entry.1 = order key entry.1) :
    map.mapRemove compare key = map.mapRemove order key := by
  unfold mapRemove
  rw [bsearch_congr agree]

theorem setContains_congr {set : SortedMap Key Unit} {key : Key}
    (agree : ∀ entry ∈ set.values, compare key entry.1 = order key entry.1) :
    set.setContains compare key = set.setContains order key := by
  unfold setContains
  rw [bsearch_congr agree]

/-- An insertion adds no key but the one inserted. -/
theorem key_of_mem_insert [Std.TransCmp order] (sorted : map.Sorted order) {key : Key}
    {value : Value} {entry : Key × Value} (inside : entry ∈ (map.insert order key value).values) :
    entry.1 = key ∨ ∃ old ∈ map.values, entry.1 = old.1 := by
  have inserts := inserts_insert sorted key value
  generalize (map.insert order key value).values = result at inserts inside
  generalize map.values = values at inserts
  cases inserts with
  | @replace front back replaced same =>
    rcases List.mem_append.mp inside with inFront | inBack
    · exact .inr ⟨entry, List.mem_append_left _ inFront, rfl⟩
    · rcases List.mem_cons.mp inBack with rfl | inBack
      · exact .inr ⟨replaced, List.mem_append_right _ List.mem_cons_self, rfl⟩
      · exact .inr ⟨entry, List.mem_append_right _ (List.mem_cons_of_mem _ inBack), rfl⟩
  | @between front back smaller larger =>
    rcases List.mem_append.mp inside with inFront | inBack
    · exact .inr ⟨entry, List.mem_append_left _ inFront, rfl⟩
    · rcases List.mem_cons.mp inBack with rfl | inBack
      · exact .inl rfl
      · exact .inr ⟨entry, List.mem_append_right _ inBack, rfl⟩

end SortedMap

/-- The containers that a loop has to do with hold only keys that compare alike. -/
structure HoldsAlike (compare order : Key → Key → Ordering) (alike : Key → Prop)
    (maps : SortedMaps Key Value) (involved : ℕ → Prop) : Prop where
  agree : ∀ first second, alike first → alike second → compare first second = order first second
  holds : ∀ map, involved map → ∀ entry ∈ (maps map).values, alike entry.1

namespace HoldsAlike

variable {alike : Key → Prop} {maps : SortedMaps Key Value} {involved : ℕ → Prop}

/-- Inserting a key that compares alike, into a container of the loop. -/
theorem insert [Std.TransCmp order] (holds : HoldsAlike compare order alike maps involved)
    {dest : ℕ} (isInvolved : involved dest) (sorted : (maps dest).Sorted order) {key : Key}
    (isAlike : alike key) (value : Value) :
    (maps dest).insert compare key value = (maps dest).insert order key value ∧
      HoldsAlike compare order alike
        (Function.update maps dest ((maps dest).insert order key value)) involved := by
  constructor
  · apply SortedMap.insert_congr
    exact fun entry inside => holds.agree _ _ isAlike (holds.holds dest isInvolved entry inside)
  · refine ⟨holds.agree, ?_⟩
    intro map among entry inside
    rcases eq_or_ne map dest with rfl | ne
    · rw [Function.update_self] at inside
      rcases SortedMap.key_of_mem_insert sorted inside with same | ⟨old, inOld, same⟩
      · rw [same]
        exact isAlike
      · rw [same]
        exact holds.holds map among old inOld
    · rw [Function.update_of_ne ne] at inside
      exact holds.holds map among entry inside

end HoldsAlike

variable [Std.TransCmp order] {alike : Key → Prop}

theorem insertAll_congr {maps : SortedMaps Key Value} {involved : ℕ → Prop}
    (holds : HoldsAlike compare order alike maps involved)
    (sorted : ∀ map, (maps map).Sorted order) {dest src : ℕ} (isDest : involved dest)
    (isSrc : involved src) :
    insertAll compare maps dest src = insertAll order maps dest src ∧
      HoldsAlike compare order alike (insertAll order maps dest src) involved ∧
      ∀ map, (insertAll order maps dest src map).Sorted order := by
  unfold insertAll
  generalize (maps src).values.length = count
  induction count with
  | zero => exact ⟨rfl, holds, sorted⟩
  | succ count ih =>
    obtain ⟨same, holdsBefore, sortedBefore⟩ := ih
    simp only [List.range_succ, List.foldl_append, List.foldl_cons, List.foldl_nil]
    rw [same]
    generalize List.foldl _ maps (List.range count) = before at holdsBefore sortedBefore
    cases found : (before src).values[count]? with
    | none => exact ⟨rfl, holdsBefore, sortedBefore⟩
    | some entry =>
      have isAlike := holdsBefore.holds src isSrc entry (List.mem_of_getElem? found)
      obtain ⟨sameInsert, holdsAfter⟩ :=
        holdsBefore.insert isDest (sortedBefore dest) isAlike entry.2
      exact ⟨congrArg (Function.update before dest) sameInsert, holdsAfter,
        sorted_update_insert sortedBefore dest entry.1 entry.2⟩

variable {sets : SortedMaps Key Unit} {set1 set2 result : ℕ}

theorem setUnion_congr {involved : ℕ → Prop} (holds : HoldsAlike compare order alike sets involved)
    (sorted : ∀ set, (sets set).Sorted order) (is1 : involved set1) (is2 : involved set2)
    (isResult : involved result) :
    setUnion compare sets set1 set2 result = setUnion order sets set1 set2 result := by
  have ⟨same1, holds1, sorted1⟩ := insertAll_congr holds sorted isResult is1
  unfold setUnion
  rw [same1, (insertAll_congr holds1 sorted1 isResult is2).1]

theorem intersectFrom_congr {involved : ℕ → Prop} (is1 : involved set1) (is2 : involved set2)
    (isResult : involved result) (left i j : ℕ)
    (holds : HoldsAlike compare order alike sets involved)
    (sorted : ∀ set, (sets set).Sorted order) :
    intersectFrom compare set1 set2 result left i j sets =
      intersectFrom order set1 set2 result left i j sets := by
  induction left generalizing i j sets with
  | zero => rfl
  | succ left ih =>
    unfold intersectFrom
    cases foundFirst : (sets set1).values[i]? with
    | none => rfl
    | some first =>
    cases foundSecond : (sets set2).values[j]? with
    | none => rfl
    | some second =>
    have alike1 := holds.holds set1 is1 first (List.mem_of_getElem? foundFirst)
    have alike2 := holds.holds set2 is2 second (List.mem_of_getElem? foundSecond)
    simp only [holds.agree _ _ alike1 alike2]
    cases order first.1 second.1 with
    | lt => exact ih (i + 1) j holds sorted
    | gt => exact ih i (j + 1) holds sorted
    | eq =>
      have ⟨same, holdsAfter⟩ := holds.insert isResult (sorted result) alike1 ()
      simp only [same]
      exact ih (i + 1) (j + 1) holdsAfter (sorted_update_insert sorted result first.1 ())

end DaveCC.Container
