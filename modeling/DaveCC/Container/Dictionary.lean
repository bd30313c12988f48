import DaveCC.Container.SortedMap
import Mathlib.Algebra.Group.Nat.Defs

/-!
# Dictionaries

The rest of `map.c`, and `set.c`, over sorted vectors. A set is a map whose values carry
nothing. `bsearch` halves like the search for a place to insert. Several containers live
side by side, so that one may be both operand and result: a loop over a container reads
it while it writes the result. The containers that a loop reads do not grow meanwhile,
and their lengths are read once.
-/

namespace DaveCC.Container

universe u v

variable {Key : Type u} {Value : Type v} (compare : Key → Key → Ordering)

namespace SortedMap

/-- `bsearch`: the index of an entry whose key compares equal. -/
def bsearch (values : List (Key × Value)) (key : Key) : Option ℕ :=
  match findLocation compare values key 0 values.length with
  | (true, index) => some index
  | (false, _) => none

def mapFind (map : SortedMap Key Value) (key : Key) : Option Value :=
  (bsearch compare map.values key).bind fun index => (map.values[index]?).map Prod.snd

/-- The value that `LinearInsert` replaces. -/
def linearReplaced (key : Key) : List (Key × Value) → Option Value
  | [] => none
  | entry :: rest =>
    match compare key entry.1 with
    | .eq => some entry.2
    | .lt => none
    | .gt => linearReplaced key rest

/-- The value that `BinaryInsert` replaces. -/
def binaryReplaced (key : Key) (values : List (Key × Value)) : Option Value :=
  match findLocation compare values key 0 values.length with
  | (true, index) => (values[index]?).map Prod.snd
  | (false, _) => none

/-- `MapInsert`, with the value it returns. -/
def mapInsert (map : SortedMap Key Value) (key : Key) (value : Value) :
    Option Value × SortedMap Key Value :=
  (if map.values.length < 5 then linearReplaced compare key map.values
    else binaryReplaced compare key map.values,
    map.insert compare key value)

/-- `MapRemove`, with the value it returns, and `SetRemove`. -/
def mapRemove (map : SortedMap Key Value) (key : Key) : Option Value × SortedMap Key Value :=
  match bsearch compare map.values key with
  | none => (none, map)
  | some index => ((map.values[index]?).map Prod.snd, ⟨map.values.eraseIdx index⟩)

def setContains (set : SortedMap Key Unit) (value : Key) : Bool :=
  (bsearch compare set.values value).isSome

end SortedMap

/-- The containers by the address of their structure. -/
abbrev SortedMaps (Key : Type u) (Value : Type v) := ℕ → SortedMap Key Value

/-- `MapCopy`, and the loops of `SetUnion`: insert every entry of a container. -/
def insertAll (maps : SortedMaps Key Value) (dest src : ℕ) : SortedMaps Key Value :=
  (List.range (maps src).values.length).foldl
    (fun maps index =>
      match (maps src).values[index]? with
      | none => maps
      | some entry => Function.update maps dest ((maps dest).insert compare entry.1 entry.2))
    maps

def setUnion (sets : SortedMaps Key Unit) (set1 set2 result : ℕ) : SortedMaps Key Unit :=
  insertAll compare (insertAll compare sets result set1) result set2

/-- The loop of `SetIntersection`, from two positions on. -/
def intersectFrom (set1 set2 result : ℕ) :
    ℕ → ℕ → ℕ → SortedMaps Key Unit → SortedMaps Key Unit
  | 0, _, _, sets => sets
  | left + 1, i, j, sets =>
    match (sets set1).values[i]?, (sets set2).values[j]? with
    | some first, some second =>
      match compare first.1 second.1 with
      | .eq =>
        intersectFrom set1 set2 result left (i + 1) (j + 1)
          (Function.update sets result ((sets result).insert compare first.1 ()))
      | .lt => intersectFrom set1 set2 result left (i + 1) j sets
      | .gt => intersectFrom set1 set2 result left i (j + 1) sets
    | _, _ => sets

def setIntersection (sets : SortedMaps Key Unit) (set1 set2 result : ℕ) : SortedMaps Key Unit :=
  intersectFrom compare set1 set2 result
    ((sets set1).values.length + (sets set2).values.length) 0 0 sets

namespace SortedMap

variable {compare} [Std.TransCmp compare]

/-- The entries ascend by key. -/
abbrev AscendingBy (compare : Key → Key → Ordering) (values : List (Key × Value)) : Prop :=
  values.Pairwise fun first second => compare first.1 second.1 = .lt

variable {values : List (Key × Value)}

/-- A search of a sorted vector finds an entry whose key compares equal, if there is one. -/
theorem bsearch_spec (sorted : AscendingBy compare values) (key : Key) :
    (∃ index entry, bsearch compare values key = some index ∧ values[index]? = some entry ∧
      compare key entry.1 = .eq) ∨
    (bsearch compare values key = none ∧ ∀ entry ∈ values, compare key entry.1 ≠ .eq) := by
  have none_before : ∀ index entry, index < 0 → values[index]? = some entry →
      compare key entry.1 = .gt := fun _ _ impossible => absurd impossible (Nat.not_lt_zero _)
  have none_after : ∀ index entry, values.length ≤ index → values[index]? = some entry →
      compare key entry.1 = .lt := by
    intro index entry outside found
    rw [List.getElem?_eq_none outside] at found
    cases found
  unfold bsearch
  rcases findLocation_spec sorted (Nat.zero_le _) (Nat.le_refl _) none_before none_after with
    ⟨index, entry, ends, found, same⟩ | ⟨index, ends, -, smaller, larger⟩
  · rw [ends]
    exact .inl ⟨index, entry, rfl, found, same⟩
  · rw [ends]
    refine .inr ⟨rfl, ?_⟩
    intro entry inside same
    obtain ⟨other, found⟩ := List.mem_iff_getElem?.mp inside
    rcases Nat.lt_or_ge other index with before | after
    · rw [smaller other entry before found] at same
      cases same
    · rw [larger other entry after found] at same
      cases same

/-- The entries of a sorted vector with one key are one entry. -/
theorem entry_unique (sorted : AscendingBy compare values) {key : Key}
    {first second : Key × Value} (inFirst : first ∈ values) (inSecond : second ∈ values)
    (sameFirst : compare key first.1 = .eq) (sameSecond : compare key second.1 = .eq) :
    first = second := by
  have equal : compare first.1 second.1 = .eq := by
    rw [← Std.TransCmp.congr_left sameFirst]
    exact sameSecond
  have apart : ∀ {i j : ℕ} {before after : Key × Value}, i < j → values[i]? = some before →
      values[j]? = some after → compare before.1 after.1 = .lt := by
    intro i j before after less foundBefore foundAfter
    obtain ⟨insideI, rfl⟩ := List.getElem?_eq_some_iff.mp foundBefore
    obtain ⟨insideJ, rfl⟩ := List.getElem?_eq_some_iff.mp foundAfter
    exact List.pairwise_iff_getElem.mp sorted i j insideI insideJ less
  obtain ⟨i, foundFirst⟩ := List.mem_iff_getElem?.mp inFirst
  obtain ⟨j, foundSecond⟩ := List.mem_iff_getElem?.mp inSecond
  rcases Nat.lt_trichotomy i j with less | rfl | more
  · rw [apart less foundFirst foundSecond] at equal
    cases equal
  · rw [foundFirst] at foundSecond
    exact Option.some.inj foundSecond
  · have less := Std.OrientedCmp.gt_of_lt (apart more foundSecond foundFirst)
    rw [less] at equal
    cases equal

/-- What a search for an equal key finds first is the only such entry. -/
theorem find_eq_of_mem {map : SortedMap Key Value} (sorted : map.Sorted compare) {key : Key}
    {entry : Key × Value} (inside : entry ∈ map.values) (same : compare key entry.1 = .eq) :
    map.find compare key = some entry.2 := by
  have isSome : (map.values.find? fun entry => compare key entry.1 == .eq).isSome := by
    rw [List.find?_isSome]
    exact ⟨entry, inside, beq_iff_eq.mpr same⟩
  obtain ⟨other, found⟩ := Option.isSome_iff_exists.mp isSome
  have sameOther : compare key other.1 = .eq := by simpa using List.find?_some found
  have equal := entry_unique sorted (List.mem_of_find?_eq_some found) inside sameOther same
  rw [find, found, equal]
  rfl

omit [Std.TransCmp compare] in
theorem find_eq_none {map : SortedMap Key Value} {key : Key}
    (absent : ∀ entry ∈ map.values, compare key entry.1 ≠ .eq) : map.find compare key = none := by
  rw [find, Option.map_eq_none_iff, List.find?_eq_none]
  exact fun entry inside => fun same => absent entry inside (beq_iff_eq.mp same)

variable {map : SortedMap Key Value}

theorem mapFind_eq (sorted : map.Sorted compare) (key : Key) :
    map.mapFind compare key = map.find compare key := by
  unfold mapFind
  rcases bsearch_spec sorted key with ⟨index, entry, searches, found, same⟩ | ⟨searches, absent⟩
  · rw [searches, Option.bind_some, found, find_eq_of_mem sorted (List.mem_of_getElem? found) same]
    rfl
  · rw [searches, find_eq_none absent]
    rfl

theorem setContains_eq {set : SortedMap Key Unit} (sorted : set.Sorted compare) (key : Key) :
    set.setContains compare key = (set.find compare key).isSome := by
  unfold setContains
  rcases bsearch_spec sorted key with ⟨index, entry, searches, found, same⟩ | ⟨searches, absent⟩
  · rw [searches, find_eq_of_mem sorted (List.mem_of_getElem? found) same]
    rfl
  · rw [searches, find_eq_none absent]
    rfl

theorem linearReplaced_eq (sorted : AscendingBy compare values) (key : Key) :
    linearReplaced compare key values = find compare ⟨values⟩ key := by
  induction values with
  | nil => rfl
  | cons entry rest ih =>
    have ⟨above, sortedRest⟩ := List.pairwise_cons.mp sorted
    unfold linearReplaced
    cases order : compare key entry.1 with
    | eq => exact (@find_eq_of_mem _ _ _ _ ⟨entry :: rest⟩ sorted _ _ List.mem_cons_self order).symm
    | gt => simp only [ih sortedRest, find, List.find?_cons, order]; rfl
    | lt =>
      symm
      apply find_eq_none
      intro other inside same
      rcases List.mem_cons.mp inside with rfl | inside
      · rw [order] at same
        cases same
      · rw [Std.TransCmp.lt_trans order (above other inside)] at same
        cases same

/-- An insertion returns what a search finds before it. -/
theorem mapInsert_fst (sorted : map.Sorted compare) (key : Key) (value : Value) :
    (map.mapInsert compare key value).1 = map.find compare key := by
  unfold mapInsert
  split
  · exact linearReplaced_eq sorted key
  · rw [← mapFind_eq sorted key]
    unfold binaryReplaced mapFind bsearch
    split <;> rfl

/-! ## Removing -/

theorem mapRemove_spec (sorted : map.Sorted compare) (key : Key) :
    (map.mapRemove compare key).1 = map.find compare key ∧
      (map.mapRemove compare key).2.Sorted compare ∧
      ∀ other, (map.mapRemove compare key).2.find compare other =
        if compare other key = .eq then none else map.find compare other := by
  unfold mapRemove
  rcases bsearch_spec sorted key with ⟨index, entry, searches, found, same⟩ | ⟨searches, absent⟩
  · simp only [searches]
    have inside := List.mem_of_getElem? found
    have sublist : (map.values.eraseIdx index).Sublist map.values := List.eraseIdx_sublist ..
    have sortedErased : (⟨map.values.eraseIdx index⟩ : SortedMap Key Value).Sorted compare :=
      sorted.sublist sublist
    refine ⟨?_, sortedErased, ?_⟩
    · rw [found, find_eq_of_mem sorted inside same]
      rfl
    · intro other
      split
      next sameOther =>
        apply find_eq_none
        intro left inErased sameLeft
        -- The erased entry is the only one with the key.
        have sameKey : compare key left.1 = .eq := by
          rw [← Std.TransCmp.congr_left sameOther]
          exact sameLeft
        obtain ⟨indexLt, rfl⟩ := List.getElem?_eq_some_iff.mp found
        obtain ⟨position, apart, foundLeft⟩ := List.mem_eraseIdx_iff_getElem?.mp inErased
        obtain ⟨positionLt, rfl⟩ := List.getElem?_eq_some_iff.mp foundLeft
        have equal : compare map.values[index].1 map.values[position].1 = .eq := by
          rw [← Std.TransCmp.congr_left same]
          exact sameKey
        rcases Nat.lt_or_gt_of_ne apart with less | more
        · have lower := List.pairwise_iff_getElem.mp sorted position index positionLt indexLt less
          rw [Std.OrientedCmp.gt_of_lt lower] at equal
          cases equal
        · rw [List.pairwise_iff_getElem.mp sorted index position indexLt positionLt more] at equal
          cases equal
      next differs =>
        rcases Option.eq_none_or_eq_some (map.find compare other) with missing | ⟨value, present⟩
        · rw [missing]
          apply find_eq_none
          intro left inErased sameLeft
          rw [find_eq_of_mem sorted (sublist.mem inErased) sameLeft] at missing
          cases missing
        · rw [present]
          rw [find, Option.map_eq_some_iff] at present
          obtain ⟨left, foundLeft, rfl⟩ := present
          have sameLeft : compare other left.1 = .eq := by
            simpa using List.find?_some foundLeft
          obtain ⟨position, atPosition⟩ :=
            List.mem_iff_getElem?.mp (List.mem_of_find?_eq_some foundLeft)
          apply find_eq_of_mem sortedErased _ sameLeft
          refine List.mem_eraseIdx_iff_getElem?.mpr ⟨position, ?_, atPosition⟩
          rintro rfl
          rw [found, Option.some.injEq] at atPosition
          subst atPosition
          apply differs
          rw [Std.TransCmp.congr_right same]
          exact sameLeft
  · simp only [searches]
    refine ⟨(find_eq_none absent).symm, sorted, ?_⟩
    intro other
    split
    next sameOther =>
      apply find_eq_none
      intro entry inside sameEntry
      apply absent entry inside
      rw [← Std.TransCmp.congr_left sameOther]
      exact sameEntry
    next => rfl

end SortedMap

end DaveCC.Container

/-!
## The comparators of maps and sets

The functions by which `map.c` and `set.c` order keys and elements. A comparator returns
an `int` of which only the sign matters. All of them order totally but `CompareIntegers`,
whose difference wraps around when the integers are too far apart.
-/

namespace DaveCC.Container

/-- `strcmp`: the bytes before the first NUL, by the first that differs. -/
def strcmp : List UInt8 → List UInt8 → Ordering :=
  compareOn fun bytes => bytes.takeWhile (· != 0)

def toLower (char : UInt8) : UInt8 :=
  if 65 ≤ char ∧ char ≤ 90 then char + 32 else char

def strcasecmp : List UInt8 → List UInt8 → Ordering :=
  compareOn fun bytes => (bytes.takeWhile (· != 0)).map toLower

def compareMappedInt64s (first second : BitVec 64) : Ordering :=
  if first.slt second then .lt else if second.slt first then .gt else .eq

def compareMappedPointers (first second : BitVec 64) : Ordering :=
  if first < second then .lt else if second < first then .gt else .eq

/-- The functions that initialize a map with a comparator. -/
inductive MapKind where
  | stringKeys | caseBlindStringKeys | pointerKeys | charPointerKeys | caseBlindCharPointerKeys
  | int64Keys
  deriving DecidableEq, Repr

namespace MapKind

/-- What the comparator reads of a key: the bytes it points to, or its own. -/
def Key : MapKind → Type
  | stringKeys | caseBlindStringKeys | charPointerKeys | caseBlindCharPointerKeys => List UInt8
  | pointerKeys | int64Keys => BitVec 64

/-- The comparator of a map. -/
def compare : (kind : MapKind) → kind.Key → kind.Key → Ordering
  | stringKeys | charPointerKeys => strcmp
  | caseBlindStringKeys | caseBlindCharPointerKeys => strcasecmp
  | pointerKeys => compareMappedPointers
  | int64Keys => compareMappedInt64s

end MapKind

def comparePointers (first second : BitVec 64) : Ordering :=
  if first = second then .eq else if first < second then .lt else .gt

/-- `CompareIntegers`: the sign of the difference of the low halves. -/
def compareIntegers (first second : BitVec 64) : Ordering :=
  compare (first.setWidth 32 - second.setWidth 32).toInt 0

/-- The functions that initialize a set with a comparator. -/
inductive SetKind where
  | pointers | integers
  deriving DecidableEq, Repr

/-- The `int` that an element of a set of integers is. -/
def integerOf (element : BitVec 64) : ℤ := (element.setWidth 32).toInt

namespace SetKind

/-- The comparator of a set. -/
def compare : SetKind → BitVec 64 → BitVec 64 → Ordering
  | pointers => comparePointers
  | integers => compareIntegers

/-- The order that the elements have. -/
def order : SetKind → BitVec 64 → BitVec 64 → Ordering
  | pointers => compareOn fun element => element.toNat
  | integers => compareOn integerOf

/-- The difference of two elements is an `int`, where the comparator takes one. -/
def Near : SetKind → BitVec 64 → BitVec 64 → Prop
  | pointers, _, _ => True
  | integers, first, second => (integerOf first - integerOf second).natAbs < 2 ^ 31

instance (kind : SetKind) : DecidableRel kind.Near :=
  match kind with
  | pointers => fun _ _ => .isTrue trivial
  | integers => fun first second =>
    inferInstanceAs (Decidable ((integerOf first - integerOf second).natAbs < 2 ^ 31))

end SetKind

theorem compareMappedInt64s_eq : compareMappedInt64s = compareOn BitVec.toInt := by
  funext first second
  simp only [compareMappedInt64s, BitVec.slt_iff_toInt_lt, compareOn, Int.compare_eq_ite_lt]

theorem compareMappedPointers_eq : compareMappedPointers = compareOn BitVec.toNat := by
  funext first second
  simp only [compareMappedPointers, BitVec.lt_def, compareOn, Nat.compare_eq_ite_lt]

theorem comparePointers_eq : comparePointers = compareOn BitVec.toNat := by
  funext first second
  simp only [comparePointers, BitVec.lt_def, compareOn]
  rcases Nat.lt_trichotomy first.toNat second.toNat with less | same | more
  · have differ : first ≠ second := fun same => by simp [same] at less
    rw [if_neg differ, if_pos less, Nat.compare_eq_lt.mpr less]
  · rw [if_pos (BitVec.eq_of_toNat_eq same), Nat.compare_eq_eq.mpr same]
  · have differ : first ≠ second := fun same => by simp [same] at more
    rw [if_neg differ, if_neg (Nat.lt_asymm more), Nat.compare_eq_gt.mpr more]

instance : Std.TransCmp strcmp :=
  inferInstanceAs (Std.TransCmp (compareOn fun bytes : List UInt8 => bytes.takeWhile (· != 0)))

instance : Std.TransCmp strcasecmp :=
  inferInstanceAs (Std.TransCmp (compareOn fun bytes : List UInt8 =>
    (bytes.takeWhile (· != 0)).map toLower))

/-- Every comparator of a map orders its keys totally. -/
instance (kind : MapKind) : Std.TransCmp kind.compare := by
  cases kind with
  | stringKeys => exact inferInstanceAs (Std.TransCmp strcmp)
  | charPointerKeys => exact inferInstanceAs (Std.TransCmp strcmp)
  | caseBlindStringKeys => exact inferInstanceAs (Std.TransCmp strcasecmp)
  | caseBlindCharPointerKeys => exact inferInstanceAs (Std.TransCmp strcasecmp)
  | pointerKeys =>
    have order : MapKind.pointerKeys.compare = compareOn BitVec.toNat := compareMappedPointers_eq
    rw [order]
    exact inferInstanceAs (Std.TransCmp (compareOn BitVec.toNat))
  | int64Keys =>
    have order : MapKind.int64Keys.compare = compareOn BitVec.toInt := compareMappedInt64s_eq
    rw [order]
    exact inferInstanceAs (Std.TransCmp (compareOn BitVec.toInt))

/-- The elements of a set have a total order. -/
instance (kind : SetKind) : Std.TransCmp kind.order := by
  cases kind with
  | pointers => exact inferInstanceAs (Std.TransCmp (compareOn fun element : BitVec 64 => element.toNat))
  | integers => exact inferInstanceAs (Std.TransCmp (compareOn integerOf))

/-- The comparator of a set follows the order between elements that are near. -/
theorem SetKind.compare_eq_order {kind : SetKind} {first second : BitVec 64}
    (near : kind.Near first second) : kind.compare first second = kind.order first second := by
  cases kind with
  | pointers => exact congrFun (congrFun comparePointers_eq first) second
  | integers =>
    simp only [SetKind.Near, integerOf] at near
    have exact_difference : (first.setWidth 32 - second.setWidth 32).toInt =
        integerOf first - integerOf second := by
      rw [BitVec.toInt_sub, Int.bmod_eq_of_le (by omega) (by omega)]
      rfl
    simp only [SetKind.compare, SetKind.order, compareIntegers, compareOn, exact_difference,
      Int.compare_eq_ite_lt]
    split_ifs <;> first | rfl | omega

end DaveCC.Container
