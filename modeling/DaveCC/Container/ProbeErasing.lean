import DaveCC.Container.LinearProbing

/-!
# Erasing from a table with linear probing

An entry that is taken out leaves a free slot, which may hide the entries of the run
after it. These are put in again in order. Each moves to the first free slot from its
home, which is no farther than where it stood, so the run ends where it ended before.
-/

namespace DaveCC.Container.ProbeTable

universe u v

variable {Key : Type u} {Value : Type v} {hash : Key → Nat} {table : ProbeTable Key Value}
  {key : Key} {value : Value} {index : Nat} {entry : Key × Value}

/-! ## The run after an entry -/

/-- The entries of the run from `next` up to a free slot are to be put in again. All
the others are in place, and no entry is beyond the free slot from its home. -/
structure Rehashing (hash : Key → Nat) (table : ProbeTable Key Value) (free next : Nat) : Prop
    extends table.Counted where
  freeLt : free < table.capacity
  nextLt : next < table.capacity
  isFree : table.slot free = none
  short : ∀ {index : Nat} {entry : Key × Value}, table.slot index = some entry →
    distance table.capacity (table.home hash entry.1) index <
      distance table.capacity (table.home hash entry.1) free
  run : ∀ other < table.capacity,
    distance table.capacity next other < distance table.capacity next free → table.slot other ≠ none
  placed : ∀ {index : Nat} {entry : Key × Value}, table.slot index = some entry →
    ¬distance table.capacity next index < distance table.capacity next free →
      table.Reaches hash entry.1 index

/-- Two tables of one capacity hold the same. -/
structure SameContent (table other : ProbeTable Key Value) : Prop where
  capacity : other.capacity = table.capacity
  count : other.count = table.count
  holds : ∀ key value, other.Holds key value ↔ table.Holds key value

theorem SameContent.trans {second third : ProbeTable Key Value}
    (left : table.SameContent second) (right : second.SameContent third) :
    table.SameContent third where
  capacity := right.capacity.trans left.capacity
  count := right.count.trans left.count
  holds := fun key value => (right.holds key value).trans (left.holds key value)

section Erasing

variable [DecidableEq Key]

/-- What putting one entry in again changes: it moves to the first free slot from its
home, at most as far as it stood. -/
structure PutAgain (hash : Key → Nat) (table other : ProbeTable Key Value)
    (entry : Key × Value) (old new : Nat) : Prop where
  counted : other.Counted
  capacity : other.capacity = table.capacity
  count : other.count = table.count
  newLt : new < table.capacity
  noFarther : distance table.capacity (table.home hash entry.1) new ≤
    distance table.capacity (table.home hash entry.1) old
  passed : ∀ position < table.capacity,
    distance table.capacity (table.home hash entry.1) position <
        distance table.capacity (table.home hash entry.1) new →
      position ≠ old ∧ table.slot position ≠ none
  vacant : new ≠ old → table.slot new = none
  slot : ∀ position, other.slot position =
    if position = new then some entry else if position = old then none else table.slot position

theorem Counted.putAgain (hash : Key → Nat) (counted : table.Counted)
    (taken : table.slot index = some entry) :
    ∃ new, PutAgain hash table
      ((table.clear index).insertWithoutGrowing hash entry.1 entry.2) entry index new := by
  have indexLt := lt_of_slot taken
  have cleared : (table.clear index).Counted := counted.clear taken
  have clearedSlot : ∀ position, (table.clear index).slot position =
      if position = index then none else table.slot position := slot_write indexLt
  have capacityEq : (table.clear index).capacity = table.capacity := capacity_write
  have homeEq : (table.clear index).home hash entry.1 = table.home hash entry.1 := home_write
  have absent : ∀ position found, (table.clear index).slot position = some found →
      found.1 ≠ entry.1 := by
    intro position found foundTaken same
    rw [clearedSlot] at foundTaken
    split_ifs at foundTaken with here
    exact here (counted.unique foundTaken taken same)
  have vacated : (table.clear index).slot index = none := by
    rw [clearedSlot, if_pos rfl]
  have indexLt' : index < (table.clear index).capacity := by
    rw [capacityEq]
    exact indexLt
  obtain ⟨isFree, written⟩ := cleared.insertWithoutGrowing_absent hash entry.2 indexLt' vacated
    absent
  have stopsAt : (table.clear index).StopsAt (fun found => found.1 = entry.1)
      ((table.clear index).home hash entry.1) ((table.clear index).locate hash entry.1) :=
    cleared.locate_stopsAt indexLt' (by simp [vacated])
  have noFarther := stopsAt.le_of_stops indexLt' (by simp [vacated])
  have passed := stopsAt.passed
  have newLt := stopsAt.lt
  rw [homeEq, capacityEq] at noFarther passed
  rw [capacityEq] at newLt
  refine ⟨(table.clear index).locate hash entry.1, ?_⟩
  rw [written]
  constructor
  · exact cleared.put stopsAt.lt isFree absent
  · rw [capacity_write, capacityEq]
  · have positive : 0 < table.count := by
      rw [counted.count, List.countP_pos_iff]
      exact ⟨_, List.mem_of_getElem? (getElem?_slots indexLt), by rw [taken]; rfl⟩
    exact Nat.sub_add_cancel positive
  · exact newLt
  · exact noFarther
  · intro position positionLt before
    obtain ⟨found, foundTaken, -⟩ := passed position positionLt before
    rw [clearedSlot] at foundTaken
    split_ifs at foundTaken with here
    exact ⟨here, by rw [foundTaken]; exact Option.some_ne_none found⟩
  · intro apart
    rw [clearedSlot, if_neg apart] at isFree
    exact isFree
  · intro position
    rw [slot_write stopsAt.lt, clearedSlot]

omit [DecidableEq Key] in
theorem PutAgain.sameContent {other : ProbeTable Key Value} {old new : Nat}
    (putAgain : PutAgain hash table other entry old new)
    (taken : table.slot old = some entry) : table.SameContent other := by
  refine ⟨putAgain.capacity, putAgain.count, ?_⟩
  intro key value
  constructor
  · rintro ⟨position, found⟩
    rw [putAgain.slot] at found
    split_ifs at found
    · exact ⟨old, taken.trans found⟩
    · exact ⟨position, found⟩
  · rintro ⟨position, found⟩
    by_cases here : position = old
    · subst here
      rw [taken] at found
      exact ⟨new, by rw [putAgain.slot, if_pos rfl, found]⟩
    · have apart : position ≠ new := by
        rintro rfl
        rw [putAgain.vacant here] at found
        cases found
      exact ⟨position, by rw [putAgain.slot, if_neg apart, if_neg here, found]⟩

namespace Rehashing

variable {free next : Nat}

omit [DecidableEq Key] in
/-- One entry of the run is put in again. -/
theorem step (rehashing : table.Rehashing hash free next)
    (taken : table.slot next = some entry) {other : ProbeTable Key Value} {new : Nat}
    (putAgain : PutAgain hash table other entry next new) :
    other.Rehashing hash free (successor table.capacity next) := by
  have nextLt := rehashing.nextLt
  have freeLt := rehashing.freeLt
  have capacityEq := putAgain.capacity
  have homeLt (key : Key) : table.home hash key < table.capacity :=
    rehashing.power.home_lt
  have homeEq (key : Key) : other.home hash key = table.home hash key := by
    rw [home, home, capacityEq]
  have nextShort := rehashing.short taken
  have newShort := Nat.lt_of_le_of_lt putAgain.noFarther nextShort
  have newApart : free ≠ new := by
    rintro rfl
    exact Nat.lt_irrefl _ newShort
  have nextApart : free ≠ next := by
    rintro rfl
    exact Nat.lt_irrefl _ nextShort
  -- A slot other than the one just left is taken as before.
  have stays : ∀ position, position ≠ next → table.slot position ≠ none →
      other.slot position ≠ none := by
    intro position apart occupied
    rw [putAgain.slot, if_neg apart]
    split_ifs
    · exact Option.some_ne_none entry
    · exact occupied
  refine ⟨putAgain.counted, by rw [capacityEq]; exact freeLt,
    by rw [capacityEq]; exact successor_lt nextLt, ?_, ?_, ?_, ?_⟩
  · rw [putAgain.slot, if_neg newApart, if_neg nextApart]
    exact rehashing.isFree
  · intro position found foundTaken
    rw [homeEq, capacityEq]
    rw [putAgain.slot] at foundTaken
    split_ifs at foundTaken with here gone
    · cases foundTaken
      rw [here]
      exact newShort
    · exact rehashing.short foundTaken
  · intro position positionLt before
    rw [capacityEq] at positionLt before
    have apart : position ≠ next := by
      rintro rfl
      have whole := distance_successor_self nextLt
      have less : distance table.capacity (successor table.capacity position) free <
          table.capacity := distance_lt freeLt
      omega
    have fewer := distance_successor nextLt positionLt apart
    have freeFewer := distance_successor nextLt freeLt nextApart
    exact stays position apart (rehashing.run position positionLt (by omega))
  · intro position found foundTaken outside passedSlot passedLt before
    rw [capacityEq] at outside passedLt before
    rw [homeEq] at before
    rw [putAgain.slot] at foundTaken
    split_ifs at foundTaken with here gone
    · cases foundTaken
      rw [here] at before
      obtain ⟨apart, occupied⟩ := putAgain.passed passedSlot passedLt before
      exact stays passedSlot apart occupied
    · have positionLt := lt_of_slot foundTaken
      have fewer := distance_successor nextLt positionLt gone
      have freeFewer := distance_successor nextLt freeLt nextApart
      have apart : passedSlot ≠ next := by
        rintro rfl
        have between := distance_between (homeLt found.1) passedLt positionLt freeLt before
          (rehashing.short foundTaken)
        omega
      apply stays passedSlot apart
      exact rehashing.placed foundTaken (by omega) passedSlot passedLt before

/-- Putting the whole run in again restores the form of the table. -/
theorem reinsert (rehashing : table.Rehashing hash free next) {fuel : Nat}
    (enough : distance table.capacity next free < fuel) :
    (ProbeTable.reinsert hash fuel next table).WellFormed hash ∧
      table.SameContent (ProbeTable.reinsert hash fuel next table) := by
  induction fuel generalizing table next with
  | zero => exact absurd enough (Nat.not_lt_zero _)
  | succ fuel ih =>
    rw [ProbeTable.reinsert]
    cases taken : table.slot next with
    | none =>
      have arrived : ¬distance table.capacity next next <
          distance table.capacity next free :=
        fun before => rehashing.run next rehashing.nextLt before taken
      rw [distance_self, Nat.not_lt, Nat.le_zero] at arrived
      refine ⟨⟨rehashing.toCounted,
        rehashing.toCounted.lt_of_free rehashing.nextLt taken, ?_⟩, rfl, rfl,
        fun _ _ => Iff.rfl⟩
      intro index entry found
      apply rehashing.placed found
      rw [arrived]
      exact Nat.not_lt_zero _
    | some entry =>
      obtain ⟨new, putAgain⟩ := rehashing.toCounted.putAgain hash taken
      have same := putAgain.sameContent taken
      have stepped := rehashing.step taken putAgain
      have apart : free ≠ next := by
        rintro rfl
        rw [rehashing.isFree] at taken
        cases taken
      have fewer := distance_successor rehashing.nextLt rehashing.freeLt apart
      rw [rehashing.power.step_eq rehashing.nextLt]
      have rest := ih stepped (by rw [same.capacity]; omega)
      exact ⟨rest.1, same.trans rest.2⟩

end Rehashing

omit [DecidableEq Key] in
/-- Once an entry is taken out, the run after it is to be put in again. -/
theorem WellFormed.rehashing (wellFormed : table.WellFormed hash)
    (taken : table.slot index = some entry) :
    ∃ free, (table.clear index).Rehashing hash free (successor table.capacity index) := by
  have indexLt := lt_of_slot taken
  have capacityEq : (table.clear index).capacity = table.capacity := capacity_write
  have homeEq (key : Key) : (table.clear index).home hash key = table.home hash key :=
    home_write
  have homeLt (key : Key) : table.home hash key < table.capacity :=
    wellFormed.power.home_lt
  have clearedSlot : ∀ position, (table.clear index).slot position =
      if position = index then none else table.slot position := slot_write indexLt
  have nextLt := successor_lt indexLt
  obtain ⟨vacant, vacantLt, isVacant⟩ := wellFormed.exists_free
  have vacantApart : vacant ≠ index := by
    rintro rfl
    rw [taken] at isVacant
    cases isVacant
  -- The first free slot after the one that is left.
  have stopsAt := probe_stopsAt wellFormed.power (fun _ => false) nextLt
    vacantLt (by simp [isVacant]) (Nat.lt_succ_self _)
  have noLater := stopsAt.le_of_stops vacantLt (by simp [isVacant])
  generalize table.probe (fun _ => false) _ _ = free at stopsAt noLater
  have freeLt := stopsAt.lt
  have isFree : table.slot free = none := by
    cases found : table.slot free with
    | none => rfl
    | some entry => exact absurd (stopsAt.accepted entry found) Bool.false_ne_true
  have freeApart : free ≠ index := by
    rintro rfl
    rw [taken] at isFree
    cases isFree
  have short : ∀ {position : Nat} {found : Key × Value}, table.slot position = some found →
      distance table.capacity (table.home hash found.1) position <
        distance table.capacity (table.home hash found.1) free := by
    intro position found foundTaken
    by_contra beyond
    rcases Nat.lt_or_eq_of_le (Nat.not_lt.mp beyond) with before | same
    · exact wellFormed.reaches foundTaken free freeLt before isFree
    · rw [distance_injective (homeLt found.1) freeLt (lt_of_slot foundTaken) same,
        foundTaken] at isFree
      cases isFree
  refine ⟨free, wellFormed.toCounted.clear taken, by rw [capacityEq]; exact freeLt,
    by rw [capacityEq]; exact nextLt, ?_, ?_, ?_, ?_⟩
  · rw [clearedSlot, if_neg freeApart]
    exact isFree
  · intro position found foundTaken
    rw [homeEq, capacityEq]
    rw [clearedSlot] at foundTaken
    split_ifs at foundTaken
    exact short foundTaken
  · intro position positionLt before
    rw [capacityEq] at positionLt before
    have apart : position ≠ index := by
      rintro rfl
      have whole := distance_successor_self indexLt
      have less : distance table.capacity (successor table.capacity position) free <
          table.capacity := distance_lt freeLt
      omega
    obtain ⟨found, foundTaken, -⟩ := stopsAt.passed position positionLt before
    rw [clearedSlot, if_neg apart, foundTaken]
    exact Option.some_ne_none found
  · intro position found foundTaken outside passed passedLt before
    rw [capacityEq] at outside passedLt before
    rw [homeEq] at before
    rw [clearedSlot] at foundTaken
    split_ifs at foundTaken with gone
    have positionLt := lt_of_slot foundTaken
    have apart : passed ≠ index := by
      rintro rfl
      have between := distance_between (homeLt found.1) passedLt positionLt freeLt before
        (short foundTaken)
      have fewer := distance_successor indexLt positionLt gone
      have freeFewer := distance_successor indexLt freeLt freeApart
      omega
    rw [clearedSlot, if_neg apart]
    exact wellFormed.reaches foundTaken passed passedLt before

variable [DecidableEq Value]

/-- A value that is held is erased, and nothing else. -/
theorem WellFormed.erase (wellFormed : table.WellFormed hash) (holds : table.Holds key value) :
    (table.erase hash key value).WellFormed hash ∧
      ∀ other held, (table.erase hash key value).Holds other held ↔
        other ≠ key ∧ table.Holds other held := by
  obtain ⟨index, taken⟩ := holds
  have indexLt := lt_of_slot taken
  have homeLt : table.home hash key < table.capacity := wellFormed.power.home_lt
  have stopsAt := probe_stopsAt wellFormed.power
    (fun entry => decide (entry.1 = key ∧ entry.2 = value)) homeLt indexLt
    (by simp [taken]) (distance_lt indexLt)
  have found := wellFormed.stop_eq taken (by simp) (by simp +contextual) stopsAt
  have nonempty : table.capacity ≠ 0 := Nat.ne_of_gt wellFormed.power.pos
  have erased : table.erase hash key value =
      ProbeTable.reinsert hash table.capacity (table.step index) (table.clear index) := by
    rw [ProbeTable.erase, if_neg nonempty]
    simp only [found, taken]
  obtain ⟨free, rehashing⟩ := wellFormed.rehashing taken
  have capacityEq : (table.clear index).capacity = table.capacity := capacity_write
  have freeLt := rehashing.freeLt
  rw [capacityEq] at freeLt
  rw [erased, wellFormed.power.step_eq indexLt]
  have enough : distance (table.clear index).capacity (successor table.capacity index) free <
      table.capacity := by
    rw [capacityEq]
    exact distance_lt freeLt
  obtain ⟨restored, same⟩ := rehashing.reinsert enough
  refine ⟨restored, ?_⟩
  intro other held
  rw [same.holds]
  have clearedSlot : ∀ position, (table.clear index).slot position =
      if position = index then none else table.slot position := slot_write indexLt
  constructor
  · rintro ⟨position, kept⟩
    rw [clearedSlot] at kept
    split_ifs at kept with gone
    refine ⟨?_, position, kept⟩
    rintro rfl
    exact gone (wellFormed.unique kept taken rfl)
  · rintro ⟨apart, position, kept⟩
    refine ⟨position, ?_⟩
    rw [clearedSlot, if_neg, kept]
    rintro rfl
    rw [taken, Option.some.injEq, Prod.mk.injEq] at kept
    exact apart kept.1.symm

theorem Valid.erase (valid : table.Valid hash) (holds : table.Holds key value) :
    (table.erase hash key value).Valid hash ∧
      ∀ other held, (table.erase hash key value).Holds other held ↔
        other ≠ key ∧ table.Holds other held := by
  rcases valid with ⟨empty, -⟩ | wellFormed
  · exact absurd holds (not_holds_of_empty empty)
  · obtain ⟨erased, holdsErased⟩ := wellFormed.erase holds
    exact ⟨.inr erased, holdsErased⟩

end Erasing

end DaveCC.Container.ProbeTable
