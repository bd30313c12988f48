import DaveCC.Container.DictionaryEffects

/-!
# Runs of operations on maps and sets

A run is a sequence of calls on several maps, or on several sets, that begins with all of
them empty. It refines the same run on dictionaries, which bind a key and every key that
compares equal: after each run the vectors ascend, and what was answered is what the
dictionaries have. A map needs nothing for that. A set of integers needs the integers of
each call to be near the ones they are compared with.
-/

namespace DaveCC.Container

open SortedMap

universe u v

variable {Key : Type u} {Value : Type v}

/-- A call of a function of maps, with the maps it is given. -/
inductive MapCall (Key : Type u) (Value : Type v) where
  | insert (map : ℕ) (key : Key) (value : Value)
  | remove (map : ℕ) (key : Key)
  | find (map : ℕ) (key : Key)
  | copy (dest src : ℕ)
  deriving DecidableEq, Repr

namespace MapCall

/-- The maps after a call, and the value that it returns. -/
def run (compare : Key → Key → Ordering) (maps : SortedMaps Key Value) :
    MapCall Key Value → SortedMaps Key Value × Option Value
  | insert map key value =>
    let (old, written) := (maps map).mapInsert compare key value
    (Function.update maps map written, old)
  | remove map key =>
    let (old, written) := (maps map).mapRemove compare key
    (Function.update maps map written, old)
  | find map key => (maps, (maps map).mapFind compare key)
  | copy dest src => (insertAll compare maps dest src, none)

/-- The same call on dictionaries. -/
def means (compare : Key → Key → Ordering) (dictionaries : ℕ → Key → Option Value) :
    MapCall Key Value → (ℕ → Key → Option Value) × Option Value
  | insert map key value =>
    (Function.update dictionaries map (bindKey compare (dictionaries map) key (some value)),
      dictionaries map key)
  | remove map key =>
    (Function.update dictionaries map (bindKey compare (dictionaries map) key none),
      dictionaries map key)
  | find map key => (dictionaries, dictionaries map key)
  | copy dest src =>
    (Function.update dictionaries dest fun key =>
      (dictionaries src key).or (dictionaries dest key), none)

/-- A call does what it means, and returns what it means. -/
theorem run_refines_means {compare : Key → Key → Ordering} [Std.TransCmp compare]
    {maps : SortedMaps Key Value} {dictionaries : ℕ → Key → Option Value}
    (represents : Represents compare maps dictionaries) (call : MapCall Key Value) :
    Represents compare (call.run compare maps).1 (call.means compare dictionaries).1 ∧
      (call.run compare maps).2 = (call.means compare dictionaries).2 := by
  cases call with
  | insert map key value =>
    refine ⟨represents.insert map key value, ?_⟩
    exact (mapInsert_fst (represents.sorted map) key value).trans (represents.find map key)
  | remove map key =>
    refine ⟨represents.remove map key, ?_⟩
    exact (mapRemove_spec (represents.sorted map) key).1.trans (represents.find map key)
  | find map key =>
    refine ⟨represents, ?_⟩
    exact (mapFind_eq (represents.sorted map) key).trans (represents.find map key)
  | copy dest src => exact ⟨represents.insertAll dest src, rfl⟩

end MapCall

/-- The maps after a run, and what its calls returned in order. -/
def runMapCalls (compare : Key → Key → Ordering) (maps : SortedMaps Key Value) :
    List (MapCall Key Value) → SortedMaps Key Value × List (Option Value)
  | [] => (maps, [])
  | call :: rest =>
    let (maps, answer) := call.run compare maps
    let (maps, answers) := runMapCalls compare maps rest
    (maps, answer :: answers)

/-- The dictionaries after a run, and its answers in order. -/
def mapCallsMean (compare : Key → Key → Ordering) (dictionaries : ℕ → Key → Option Value) :
    List (MapCall Key Value) → (ℕ → Key → Option Value) × List (Option Value)
  | [] => (dictionaries, [])
  | call :: rest =>
    let (dictionaries, answer) := call.means compare dictionaries
    let (dictionaries, answers) := mapCallsMean compare dictionaries rest
    (dictionaries, answer :: answers)

theorem runMapCalls_refines {compare : Key → Key → Ordering} [Std.TransCmp compare]
    {maps : SortedMaps Key Value} {dictionaries : ℕ → Key → Option Value}
    (represents : Represents compare maps dictionaries) (calls : List (MapCall Key Value)) :
    Represents compare (runMapCalls compare maps calls).1
        (mapCallsMean compare dictionaries calls).1 ∧
      (runMapCalls compare maps calls).2 = (mapCallsMean compare dictionaries calls).2 := by
  induction calls generalizing maps dictionaries with
  | nil => exact ⟨represents, rfl⟩
  | cons call rest ih =>
    have ⟨representsAfter, sameAnswer⟩ := call.run_refines_means represents
    have ⟨representsLast, sameAnswers⟩ := ih representsAfter
    exact ⟨representsLast, congrArg₂ List.cons sameAnswer sameAnswers⟩

/-! ## Sets -/

/-- A call of a function of sets, with the sets it is given. -/
inductive SetCall (Key : Type u) where
  | insert (set : ℕ) (value : Key)
  | remove (set : ℕ) (value : Key)
  | contains (set : ℕ) (value : Key)
  | union (set1 set2 result : ℕ)
  | intersection (set1 set2 result : ℕ)
  deriving DecidableEq, Repr

namespace SetCall

/-- The sets after a call, and whether it found the value it asks for. -/
def run (compare : Key → Key → Ordering) (sets : SortedMaps Key Unit) :
    SetCall Key → SortedMaps Key Unit × Option Bool
  | insert set value => (Function.update sets set ((sets set).insert compare value ()), none)
  | remove set value =>
    (Function.update sets set ((sets set).mapRemove compare value).2, none)
  | contains set value => (sets, some ((sets set).setContains compare value))
  | union set1 set2 result => (setUnion compare sets set1 set2 result, none)
  | intersection set1 set2 result => (setIntersection compare sets set1 set2 result, none)

/-- The same call on dictionaries. -/
def means (order : Key → Key → Ordering) (dictionaries : ℕ → Key → Option Unit) :
    SetCall Key → (ℕ → Key → Option Unit) × Option Bool
  | insert set value =>
    (Function.update dictionaries set (bindKey order (dictionaries set) value (some ())), none)
  | remove set value =>
    (Function.update dictionaries set (bindKey order (dictionaries set) value none), none)
  | contains set value => (dictionaries, some (dictionaries set value).isSome)
  | union set1 set2 result =>
    (Function.update dictionaries result fun key =>
      (dictionaries set1 key).or ((dictionaries set2 key).or (dictionaries result key)), none)
  | intersection set1 set2 result =>
    (Function.update dictionaries result fun key =>
      (bothHave (dictionaries set1 key) (dictionaries set2 key)).or (dictionaries result key), none)

/-- The value of a call is near the elements of its set, and the elements of the sets that
a call combines are near each other. -/
def Separates (near : Key → Key → Prop) (sets : SortedMaps Key Unit) : SetCall Key → Prop
  | insert set value | remove set value | contains set value =>
    ∀ entry ∈ (sets set).values, near value entry.1
  | union set1 set2 result | intersection set1 set2 result =>
    ∀ first ∈ [set1, set2, result], ∀ second ∈ [set1, set2, result],
      ∀ entry ∈ (sets first).values, ∀ other ∈ (sets second).values, near entry.1 other.1

instance (near : Key → Key → Prop) [DecidableRel near] (sets : SortedMaps Key Unit) :
    (call : SetCall Key) → Decidable (call.Separates near sets)
  | insert .. | remove .. | contains .. => inferInstanceAs (Decidable (∀ _ ∈ _, _))
  | union .. | intersection .. => inferInstanceAs (Decidable (∀ _ ∈ _, _))

variable {order : Key → Key → Ordering} {sets : SortedMaps Key Unit}

/-- A call that compares only what is near does what it would do with the order. -/
theorem run_congr {compare : Key → Key → Ordering} [Std.TransCmp order] {near : Key → Key → Prop}
    (agree : ∀ first second, near first second → compare first second = order first second)
    (sorted : ∀ set, (sets set).Sorted order) {call : SetCall Key}
    (separates : call.Separates near sets) : call.run compare sets = call.run order sets := by
  have holdsAlike : ∀ {set1 set2 result : ℕ},
      (∀ first ∈ [set1, set2, result], ∀ second ∈ [set1, set2, result],
        ∀ entry ∈ (sets first).values, ∀ other ∈ (sets second).values, near entry.1 other.1) →
      HoldsAlike compare order
        (fun key => ∃ set ∈ [set1, set2, result], ∃ entry ∈ (sets set).values, entry.1 = key)
        sets (· ∈ [set1, set2, result]) := by
    intro set1 set2 result nearby
    constructor
    · rintro _ _ ⟨first, isFirst, entry, inFirst, rfl⟩ ⟨second, isSecond, other, inSecond, rfl⟩
      exact agree _ _ (nearby first isFirst second isSecond entry inFirst other inSecond)
    · exact fun set among entry inside => ⟨set, among, entry, inside, rfl⟩
  cases call with
  | insert set value =>
    have same := insert_congr (fun entry inside =>
      agree value entry.1 (separates entry inside)) ()
    simp only [run, same]
  | remove set value =>
    have same := mapRemove_congr fun entry inside =>
      agree value entry.1 (separates entry inside)
    simp only [run, same]
  | contains set value =>
    have same := setContains_congr fun entry inside =>
      agree value entry.1 (separates entry inside)
    simp only [run, same]
  | union set1 set2 result =>
    have involved : ∀ set ∈ [set1, set2, result], set ∈ [set1, set2, result] :=
      fun _ among => among
    have same := setUnion_congr (holdsAlike separates) sorted (involved set1 (by simp))
      (involved set2 (by simp)) (involved result (by simp))
    simp only [run, same]
  | intersection set1 set2 result =>
    have involved : ∀ set ∈ [set1, set2, result], set ∈ [set1, set2, result] :=
      fun _ among => among
    have same := intersectFrom_congr (involved set1 (by simp)) (involved set2 (by simp))
      (involved result (by simp)) ((sets set1).values.length + (sets set2).values.length) 0 0
      (holdsAlike separates) sorted
    exact congrArg (·, none) same

/-- A call does what it means with the order, and answers what it means. -/
theorem run_refines_means [Std.TransCmp order] {dictionaries : ℕ → Key → Option Unit}
    (represents : Represents order sets dictionaries) (call : SetCall Key) :
    Represents order (call.run order sets).1 (call.means order dictionaries).1 ∧
      (call.run order sets).2 = (call.means order dictionaries).2 := by
  cases call with
  | insert set value => exact ⟨represents.insert set value (), rfl⟩
  | remove set value => exact ⟨represents.remove set value, rfl⟩
  | contains set value =>
    refine ⟨represents, congrArg some ?_⟩
    rw [setContains_eq (represents.sorted set), represents.find]
  | union set1 set2 result => exact ⟨represents.union set1 set2 result, rfl⟩
  | intersection set1 set2 result => exact ⟨represents.intersection set1 set2 result, rfl⟩

end SetCall

/-- The sets after a run, and what its calls answered in order. -/
def runSetCalls (compare : Key → Key → Ordering) (sets : SortedMaps Key Unit) :
    List (SetCall Key) → SortedMaps Key Unit × List (Option Bool)
  | [] => (sets, [])
  | call :: rest =>
    let (sets, answer) := call.run compare sets
    let (sets, answers) := runSetCalls compare sets rest
    (sets, answer :: answers)

/-- The dictionaries after a run, and its answers in order. -/
def setCallsMean (order : Key → Key → Ordering) (dictionaries : ℕ → Key → Option Unit) :
    List (SetCall Key) → (ℕ → Key → Option Unit) × List (Option Bool)
  | [] => (dictionaries, [])
  | call :: rest =>
    let (dictionaries, answer) := call.means order dictionaries
    let (dictionaries, answers) := setCallsMean order dictionaries rest
    (dictionaries, answer :: answers)

/-- Every call of a run compares only what is near. -/
def SeparatedCalls (compare : Key → Key → Ordering) (near : Key → Key → Prop)
    (sets : SortedMaps Key Unit) : List (SetCall Key) → Prop
  | [] => True
  | call :: rest =>
    call.Separates near sets ∧ SeparatedCalls compare near (call.run compare sets).1 rest

instance decidableSeparatedCalls (compare : Key → Key → Ordering) (near : Key → Key → Prop)
    [DecidableRel near] (sets : SortedMaps Key Unit) :
    (calls : List (SetCall Key)) → Decidable (SeparatedCalls compare near sets calls)
  | [] => .isTrue trivial
  | call :: rest =>
    have := decidableSeparatedCalls compare near (call.run compare sets).1 rest
    inferInstanceAs (Decidable (_ ∧ _))

theorem runSetCalls_refines {compare order : Key → Key → Ordering} [Std.TransCmp order]
    {near : Key → Key → Prop}
    (agree : ∀ first second, near first second → compare first second = order first second)
    {sets : SortedMaps Key Unit} {dictionaries : ℕ → Key → Option Unit}
    (represents : Represents order sets dictionaries) {calls : List (SetCall Key)}
    (separated : SeparatedCalls compare near sets calls) :
    Represents order (runSetCalls compare sets calls).1 (setCallsMean order dictionaries calls).1 ∧
      (runSetCalls compare sets calls).2 = (setCallsMean order dictionaries calls).2 := by
  induction calls generalizing sets dictionaries with
  | nil => exact ⟨represents, rfl⟩
  | cons call rest ih =>
    have same := call.run_congr agree represents.sorted separated.1
    have ⟨representsAfter, sameAnswer⟩ := call.run_refines_means represents
    rw [← same] at representsAfter sameAnswer
    have ⟨representsLast, sameAnswers⟩ := ih representsAfter separated.2
    exact ⟨representsLast, congrArg₂ List.cons sameAnswer sameAnswers⟩

/-- `MapInit` and `SetInit` for every container. -/
def emptyMaps : SortedMaps Key Value := fun _ => {}

theorem represents_empty (compare : Key → Key → Ordering) :
    Represents compare (emptyMaps : SortedMaps Key Value) fun _ _ => none := by
  constructor
  · exact fun _ => sorted_empty
  · exact fun _ key => find_empty key

/-- What a run on maps leaves and answers. -/
structure MapsCorrect (kind : MapKind) (calls : List (MapCall kind.Key Value)) : Prop where
  /-- The keys ascend, and none is there twice. -/
  sorted : ∀ map, ((runMapCalls kind.compare emptyMaps calls).1 map).Sorted kind.compare
  /-- The calls return what they would return of dictionaries. -/
  answers : (runMapCalls kind.compare (emptyMaps : SortedMaps kind.Key Value) calls).2 =
    (mapCallsMean kind.compare (fun _ _ => none) calls).2
  /-- A search finds the last value inserted under its key and not removed since. -/
  find : ∀ map key,
    ((runMapCalls kind.compare emptyMaps calls).1 map).mapFind kind.compare key =
      (mapCallsMean kind.compare (fun _ _ => none) calls).1 map key
  /-- Both ways of inserting into what the run leaves have the same result. -/
  insertions : ∀ map key value,
    linearInsert kind.compare key value ((runMapCalls kind.compare emptyMaps calls).1 map).values =
      binaryInsert kind.compare key value ((runMapCalls kind.compare emptyMaps calls).1 map).values

/-- What a run on sets leaves and answers. -/
structure SetsCorrect (kind : SetKind) (calls : List (SetCall (BitVec 64))) : Prop where
  /-- The elements ascend, and none is there twice. -/
  sorted : ∀ set, ((runSetCalls kind.compare emptyMaps calls).1 set).Sorted kind.order
  /-- The calls answer what they would answer of dictionaries. -/
  answers : (runSetCalls kind.compare emptyMaps calls).2 =
    (setCallsMean kind.order (fun _ _ => none) calls).2
  /-- A set contains what was inserted into it and not removed since. -/
  contains : ∀ set value,
    (∀ entry ∈ ((runSetCalls kind.compare emptyMaps calls).1 set).values, kind.Near value entry.1) →
    ((runSetCalls kind.compare emptyMaps calls).1 set).setContains kind.compare value =
      ((setCallsMean kind.order (fun _ _ => none) calls).1 set value).isSome
  /-- Both ways of inserting into what the run leaves have the same result. -/
  insertions : ∀ set value,
    (∀ entry ∈ ((runSetCalls kind.compare emptyMaps calls).1 set).values, kind.Near value entry.1) →
    linearInsert kind.compare value () ((runSetCalls kind.compare emptyMaps calls).1 set).values =
      binaryInsert kind.compare value () ((runSetCalls kind.compare emptyMaps calls).1 set).values

/-- The integers that a set keeps apart wrongly: it has one of them twice. -/
theorem integers_far_apart :
    ((runSetCalls SetKind.integers.compare emptyMaps
      [.insert 0 2147483647, .insert 0 (-2), .insert 0 0, .insert 0 (-2)]).1 0).values.map
        Prod.fst = [-2, 0, 2147483647, -2] ∧
    (runSetCalls SetKind.integers.compare emptyMaps
      [.insert 0 2147483647, .insert 0 (-2), .insert 0 0, .insert 0 (-2), .remove 0 (-2),
        .contains 0 (-2)]).2.getLast? = some (some true) := by
  decide +kernel

/-- Maps with any comparator are ordered dictionaries after every run, and so are sets
where every call compares only integers whose difference is an `int`. -/
theorem ordered_dictionaries {Value : Type} (mapKind : MapKind)
    (mapCalls : List (MapCall mapKind.Key Value)) (kind : SetKind)
    (calls : List (SetCall (BitVec 64))) :
    MapsCorrect mapKind mapCalls ∧
      (SeparatedCalls kind.compare kind.Near emptyMaps calls → SetsCorrect kind calls) := by
  constructor
  · have ⟨represents, answers⟩ :=
      runMapCalls_refines (represents_empty mapKind.compare) mapCalls
    refine ⟨represents.sorted, answers, ?_, ?_⟩
    · intro map key
      exact (mapFind_eq (represents.sorted map) key).trans (represents.find map key)
    · intro map key value
      exact linearInsert_eq_binaryInsert (represents.sorted map) key value
  · intro separated
    have agree : ∀ first second, kind.Near first second →
        kind.compare first second = kind.order first second :=
      fun _ _ => SetKind.compare_eq_order
    have ⟨represents, answers⟩ := runSetCalls_refines agree (represents_empty kind.order) separated
    refine ⟨represents.sorted, answers, ?_, ?_⟩
    · intro set value nearby
      rw [setContains_congr fun entry inside => agree _ _ (nearby entry inside),
        setContains_eq (represents.sorted set), represents.find]
    · intro set value nearby
      have nearAgree := fun entry inside => agree value _ (nearby entry inside)
      rw [linearInsert_congr nearAgree, binaryInsert_congr nearAgree]
      exact linearInsert_eq_binaryInsert (represents.sorted set) value ()

/-- Two sets of integers near zero and their union. -/
theorem ordered_dictionaries_example :
    SetsCorrect .integers [.insert 0 5, .insert 0 (-3), .insert 1 7, .union 0 1 2,
      .contains 2 (-3)] :=
  (@ordered_dictionaries Unit .stringKeys [] .integers _).2 (by decide +kernel)

end DaveCC.Container
