import Mathlib.Data.List.Count
import Mathlib.Data.Nat.Bitwise
import DaveCC.Loop.While

/-!
# Tables with linear probing

A table of a power of two of slots. The entry of a key stands in the first free slot
from the one its hash names, so every slot between the two is taken. An entry is
removed without a mark: the entries of the run after it are put in again one by one.
-/

namespace DaveCC.Container

open DaveCC.Loop

universe u v

/-- The slots of a table and the number of its entries. -/
structure ProbeTable (Key : Type u) (Value : Type v) where
  slots : List (Option (Key × Value)) := []
  count : Nat := 0

namespace ProbeTable

variable {Key : Type u} {Value : Type v}

def capacity (table : ProbeTable Key Value) : Nat := table.slots.length

def slot (table : ProbeTable Key Value) (index : Nat) : Option (Key × Value) :=
  table.slots.getD index none

/-- The slot after another one, around the end of the table. -/
def step (table : ProbeTable Key Value) (index : Nat) : Nat :=
  (index + 1) &&& (table.capacity - 1)

def clear (table : ProbeTable Key Value) (index : Nat) : ProbeTable Key Value where
  slots := table.slots.set index none
  count := table.count - 1

/-- The first slot from an index on that is free or whose entry is accepted. -/
def probe (table : ProbeTable Key Value) (accepts : Key × Value → Bool) : Nat → Nat → Nat
  | 0, index => index
  | fuel + 1, index =>
    match table.slot index with
    | none => index
    | some entry =>
      if accepts entry then index else table.probe accepts fuel (table.step index)

/-- The slot that the hash of a key names. -/
def home (hash : Key → Nat) (table : ProbeTable Key Value) (key : Key) : Nat :=
  hash key &&& (table.capacity - 1)

section

variable (hash : Key → Nat) [DecidableEq Key]

/-- The slot of a key, or the free slot where it belongs. -/
def locate (table : ProbeTable Key Value) (key : Key) : Nat :=
  table.probe (fun entry => entry.1 = key) table.capacity (table.home hash key)

def insertWithoutGrowing (table : ProbeTable Key Value) (key : Key) (value : Value) :
    ProbeTable Key Value :=
  let index := table.locate hash key
  let slots := table.slots.set index (some (key, value))
  match table.slot index with
  | some _ => { table with slots := slots }
  | none => { slots := slots, count := table.count + 1 }

def insertSlot (table : ProbeTable Key Value) (slot : Option (Key × Value)) :
    ProbeTable Key Value :=
  match slot with
  | none => table
  | some entry => table.insertWithoutGrowing hash entry.1 entry.2

def grow (table : ProbeTable Key Value) : ProbeTable Key Value :=
  let capacity := if table.capacity = 0 then 16 else table.capacity * 2
  table.slots.foldl (insertSlot hash) { slots := List.replicate capacity none, count := 0 }

def insert (table : ProbeTable Key Value) (key : Key) (value : Value) : ProbeTable Key Value :=
  let table :=
    if table.capacity = 0 ∨ table.count + 1 > table.capacity * 3 / 4 then table.grow hash
    else table
  table.insertWithoutGrowing hash key value

def find (table : ProbeTable Key Value) (key : Key) : Option Value :=
  if table.capacity = 0 then none
  else (table.slot (table.locate hash key)).map Prod.snd

/-- Put the entries of the run from an index on in again. -/
def reinsert : Nat → Nat → ProbeTable Key Value → ProbeTable Key Value
  | 0, _, table => table
  | fuel + 1, next, table =>
    match table.slot next with
    | none => table
    | some entry =>
      reinsert fuel (table.step next) ((table.clear next).insertWithoutGrowing hash entry.1 entry.2)

variable [DecidableEq Value]

def erase (table : ProbeTable Key Value) (key : Key) (value : Value) : ProbeTable Key Value :=
  if table.capacity = 0 then table
  else
    let index := table.probe (fun entry => entry.1 = key ∧ entry.2 = value) table.capacity
      (table.home hash key)
    match table.slot index with
    | none => table
    | some _ => reinsert hash table.capacity (table.step index) (table.clear index)

end

/-- The number of steps from one slot to another. -/
def distance (capacity first second : Nat) : Nat :=
  if first ≤ second then second - first else second + capacity - first

theorem distance_self (capacity first : Nat) : distance capacity first first = 0 := by
  simp [distance]

variable {first second : Nat}

theorem distance_lt {capacity : Nat} (secondLt : second < capacity) :
    distance capacity first second < capacity := by
  unfold distance
  split_ifs <;> omega

theorem distance_injective {capacity third : Nat} (firstLt : first < capacity)
    (secondLt : second < capacity) (thirdLt : third < capacity)
    (same : distance capacity first second = distance capacity first third) : second = third := by
  unfold distance at same
  split_ifs at same <;> omega

/-- A slot that is passed on the way to another one, which is met before a third. -/
theorem distance_between {capacity third fourth : Nat} (firstLt : first < capacity)
    (secondLt : second < capacity) (thirdLt : third < capacity) (fourthLt : fourth < capacity)
    (passed : distance capacity first second < distance capacity first third)
    (before : distance capacity first third < distance capacity first fourth) :
    distance capacity second third < distance capacity second fourth := by
  simp only [distance] at passed before ⊢
  split_ifs at passed before ⊢ <;> omega

/-- The slot after `index` in a table of that capacity. -/
def successor (capacity index : Nat) : Nat :=
  if index + 1 = capacity then 0 else index + 1

theorem successor_lt {capacity index : Nat} (indexLt : index < capacity) :
    successor capacity index < capacity := by
  unfold successor
  split_ifs <;> omega

theorem distance_successor {capacity index other : Nat} (indexLt : index < capacity)
    (otherLt : other < capacity) (apart : other ≠ index) :
    distance capacity (successor capacity index) other + 1 = distance capacity index other := by
  unfold distance successor
  split_ifs <;> omega

theorem distance_successor_self {capacity index : Nat} (indexLt : index < capacity) :
    distance capacity (successor capacity index) index + 1 = capacity := by
  unfold distance successor
  split_ifs <;> omega

variable {hash : Key → Nat} {table : ProbeTable Key Value} {key : Key} {value : Value}
  {index : Nat} {entry : Key × Value}

theorem lt_of_slot (taken : table.slot index = some entry) : index < table.capacity := by
  by_contra outside
  rw [slot, List.getD_eq_default _ _ (Nat.not_lt.mp outside)] at taken
  cases taken

def PowerCapacity (table : ProbeTable Key Value) : Prop :=
  ∃ exponent, table.capacity = 2 ^ exponent

namespace PowerCapacity

theorem pos (power : table.PowerCapacity) : 0 < table.capacity := by
  obtain ⟨exponent, capacity⟩ := power
  rw [capacity]
  exact Nat.two_pow_pos exponent

theorem and_mask (power : table.PowerCapacity) (number : Nat) :
    number &&& (table.capacity - 1) = number % table.capacity := by
  obtain ⟨exponent, capacity⟩ := power
  rw [capacity]
  exact Nat.and_two_pow_sub_one_eq_mod number exponent

theorem home_lt (power : table.PowerCapacity) : table.home hash key < table.capacity := by
  rw [home, power.and_mask]
  exact Nat.mod_lt _ power.pos

theorem step_eq (power : table.PowerCapacity) (indexLt : index < table.capacity) :
    table.step index = successor table.capacity index := by
  rw [step, power.and_mask, successor]
  split_ifs with last
  · rw [last, Nat.mod_self]
  · exact Nat.mod_eq_of_lt (by omega)

end PowerCapacity

/-- Where a walk from `start` stops: at a free slot or an accepted entry, past taken
slots with entries that are not. -/
structure StopsAt (table : ProbeTable Key Value) (accepts : Key × Value → Bool)
    (start stop : Nat) : Prop where
  lt : stop < table.capacity
  accepted : ∀ entry, table.slot stop = some entry → accepts entry = true
  passed : ∀ other < table.capacity,
    distance table.capacity start other < distance table.capacity start stop →
      ∃ entry, table.slot other = some entry ∧ accepts entry = false

theorem stopsAt_self {accepts : Key × Value → Bool} {start : Nat} (startLt : start < table.capacity)
    (accepted : ∀ entry, table.slot start = some entry → accepts entry = true) :
    table.StopsAt accepts start start := by
  refine ⟨startLt, accepted, ?_⟩
  intro other _ before
  rw [distance_self] at before
  exact absurd before (Nat.not_lt_zero _)

/-- A walk past a refused entry. -/
theorem StopsAt.later {accepts : Key × Value → Bool} {start stop : Nat}
    (stopsAt : table.StopsAt accepts (successor table.capacity start) stop)
    (startLt : start < table.capacity) (taken : table.slot start = some entry)
    (refused : accepts entry = false) : table.StopsAt accepts start stop := by
  have apart : stop ≠ start := by
    rintro rfl
    rw [stopsAt.accepted entry taken] at refused
    cases refused
  refine ⟨stopsAt.lt, stopsAt.accepted, ?_⟩
  intro other otherLt before
  by_cases same : other = start
  · subst same
    exact ⟨entry, taken, refused⟩
  · apply stopsAt.passed other otherLt
    have fewer := distance_successor startLt otherLt same
    have stopFewer := distance_successor startLt stopsAt.lt apart
    omega

/-- A walk stops when it has the fuel to reach a slot where it may. -/
theorem probe_stopsAt (power : table.PowerCapacity) (accepts : Key × Value → Bool)
    {fuel start witness : Nat} (startLt : start < table.capacity)
    (witnessLt : witness < table.capacity)
    (stops : ∀ entry, table.slot witness = some entry → accepts entry = true)
    (enough : distance table.capacity start witness < fuel) :
    table.StopsAt accepts start (table.probe accepts fuel start) := by
  induction fuel generalizing start with
  | zero => exact absurd enough (Nat.not_lt_zero _)
  | succ fuel ih =>
    rw [probe]
    cases taken : table.slot start with
    | none => exact stopsAt_self startLt (by simp [taken])
    | some entry =>
      simp only
      split_ifs with accepted
      · exact stopsAt_self startLt (by simp [taken, accepted])
      · have apart : witness ≠ start := by
          rintro rfl
          exact accepted (stops entry taken)
        have shorter := distance_successor startLt witnessLt apart
        rw [power.step_eq startLt]
        have found := ih (successor_lt startLt) (by omega)
        exact found.later startLt taken (by simpa using accepted)

namespace StopsAt

variable {accepts : Key × Value → Bool} {start stop : Nat}

/-- A walk does not go past a slot where it may stop. -/
theorem le_of_stops (stopsAt : table.StopsAt accepts start stop) {witness : Nat}
    (witnessLt : witness < table.capacity)
    (stops : ∀ entry, table.slot witness = some entry → accepts entry = true) :
    distance table.capacity start stop ≤ distance table.capacity start witness := by
  by_contra later
  obtain ⟨entry, taken, refused⟩ := stopsAt.passed witness witnessLt (Nat.not_le.mp later)
  rw [stops entry taken] at refused
  cases refused

end StopsAt

/-! ## Well-formed tables -/

/-- Every slot from the home of a key up to an index is taken. -/
def Reaches (hash : Key → Nat) (table : ProbeTable Key Value) (key : Key) (index : Nat) : Prop :=
  ∀ other < table.capacity,
    distance table.capacity (table.home hash key) other <
        distance table.capacity (table.home hash key) index →
      table.slot other ≠ none

/-- A key has one entry, and the entries are counted. -/
structure Counted (table : ProbeTable Key Value) : Prop where
  power : table.PowerCapacity
  unique : ∀ {first second : Nat} {entry other : Key × Value},
    table.slot first = some entry → table.slot second = some other → entry.1 = other.1 →
      first = second
  count : table.count = table.slots.countP Option.isSome

/-- Every entry is reached from the home of its key, and a slot is free. -/
structure WellFormed (hash : Key → Nat) (table : ProbeTable Key Value) : Prop
    extends table.Counted where
  free : table.count < table.capacity
  reaches : ∀ {index : Nat} {entry : Key × Value}, table.slot index = some entry →
    table.Reaches hash entry.1 index

/-- The table holds a value for a key. -/
def Holds (table : ProbeTable Key Value) (key : Key) (value : Value) : Prop :=
  ∃ index, table.slot index = some (key, value)

theorem getElem?_slots (indexLt : index < table.capacity) :
    table.slots[index]? = some (table.slot index) := by
  have inside : index < table.slots.length := indexLt
  rw [slot, List.getD_eq_getElem?_getD, List.getElem?_eq_getElem inside, Option.getD_some]

theorem Counted.exists_free (counted : table.Counted) (notFull : table.count < table.capacity) :
    ∃ free < table.capacity, table.slot free = none := by
  rw [counted.count, capacity] at notFull
  by_contra full
  push Not at full
  apply absurd notFull
  rw [Nat.not_lt, Nat.le_iff_lt_or_eq]
  right
  rw [eq_comm, List.countP_eq_length]
  intro slot member
  obtain ⟨index, found⟩ := List.mem_iff_getElem?.mp member
  have indexLt : index < table.capacity := (List.getElem?_eq_some_iff.mp found).1
  rw [getElem?_slots indexLt] at found
  rw [← Option.some.inj found]
  exact Option.isSome_iff_ne_none.mpr (full index indexLt)

def write (table : ProbeTable Key Value) (index count : Nat)
    (entry : Option (Key × Value)) : ProbeTable Key Value where
  slots := table.slots.set index entry
  count := count

variable {count : Nat} {written : Option (Key × Value)}

@[simp] theorem capacity_write : (table.write index count written).capacity = table.capacity :=
  List.length_set ..

@[simp] theorem home_write :
    (table.write index count written).home hash key = table.home hash key := by
  rw [home, home, capacity_write]

theorem slot_write (indexLt : index < table.capacity) (other : Nat) :
    (table.write index count written).slot other =
      if other = index then written else table.slot other := by
  have inside : index < table.slots.length := indexLt
  rw [slot, slot, List.getD_eq_getElem?_getD, List.getD_eq_getElem?_getD, write]
  by_cases same : other = index
  · subst same
    rw [List.getElem?_set_self inside, if_pos rfl, Option.getD_some]
  · rw [List.getElem?_set_ne (Ne.symm same), if_neg same]

theorem PowerCapacity.write (power : table.PowerCapacity) :
    (table.write index count written).PowerCapacity := by
  rw [PowerCapacity, capacity_write]
  exact power

theorem count_write (indexLt : index < table.capacity) (count : Nat)
    (written : Option (Key × Value)) :
    (table.write index count written).slots.countP Option.isSome +
        (if (table.slot index).isSome then 1 else 0) =
      table.slots.countP Option.isSome + if written.isSome then 1 else 0 := by
  have inside : index < table.slots.length := indexLt
  have found := getElem?_slots indexLt
  rw [List.getElem?_eq_getElem inside, Option.some.injEq] at found
  have positive : (table.slot index).isSome → 0 < table.slots.countP Option.isSome := by
    intro taken
    rw [List.countP_pos_iff]
    exact ⟨_, List.getElem_mem inside, by rw [found]; exact taken⟩
  rw [write, List.countP_set inside, found]
  by_cases taken : (table.slot index).isSome
  · have more := positive taken
    simp only [taken, if_true]
    omega
  · simp only [taken, Bool.false_eq_true, if_false]
    omega

namespace Counted

/-- A slot changes: the key written has no other entry. -/
theorem write (counted : table.Counted) (indexLt : index < table.capacity)
    (fresh : ∀ entry, written = some entry → ∀ other found, other ≠ index →
      table.slot other = some found → found.1 ≠ entry.1)
    (balance : count + (if (table.slot index).isSome then 1 else 0) =
      table.count + if written.isSome then 1 else 0) :
    (table.write index count written).Counted where
  power := counted.power.write
  unique := by
    intro first second entry other firstTaken secondTaken same
    rw [slot_write indexLt] at firstTaken secondTaken
    split_ifs at firstTaken secondTaken with firstHere secondHere secondHere
    · rw [firstHere, secondHere]
    · exact absurd same.symm (fresh entry firstTaken second other secondHere secondTaken)
    · exact absurd same (fresh other secondTaken first entry firstHere firstTaken)
    · exact counted.unique firstTaken secondTaken same
  count := by
    have changed := count_write indexLt count written
    have before := counted.count
    have after : (table.write index count written).count = count := rfl
    omega

theorem clear (counted : table.Counted) (taken : table.slot index = some entry) :
    (table.clear index).Counted := by
  have indexLt := lt_of_slot taken
  apply counted.write indexLt
  · intro _ absent
    cases absent
  · have changed := count_write indexLt 0 none
    have before := counted.count
    simp only [taken, Option.isSome_some, Option.isSome_none, Bool.false_eq_true, if_true,
      if_false] at changed ⊢
    omega

theorem put (counted : table.Counted) (indexLt : index < table.capacity)
    (free : table.slot index = none)
    (fresh : ∀ other found, table.slot other = some found → found.1 ≠ key) :
    (table.write index (table.count + 1) (some (key, value))).Counted := by
  apply counted.write indexLt
  · intro entry written other found _ taken
    cases written
    exact fresh other found taken
  · simp [free]

theorem replace (counted : table.Counted) (taken : table.slot index = some entry) :
    (table.write index table.count (some (entry.1, value))).Counted := by
  apply counted.write (lt_of_slot taken)
  · intro written writtenEq other found apart otherTaken same
    cases writtenEq
    exact apart (counted.unique otherTaken taken same)
  · simp [taken]

end Counted

section Searching

variable [DecidableEq Key]

theorem Counted.locate_stopsAt (counted : table.Counted) {witness : Nat}
    (witnessLt : witness < table.capacity)
    (stops : ∀ entry, table.slot witness = some entry → entry.1 = key) :
    table.StopsAt (fun entry => entry.1 = key) (table.home hash key)
      (table.locate hash key) := by
  apply probe_stopsAt counted.power _ counted.power.home_lt witnessLt
  · intro entry taken
    simpa using stops entry taken
  · exact distance_lt witnessLt

namespace WellFormed

omit [DecidableEq Key] in
theorem exists_free (wellFormed : table.WellFormed hash) :
    ∃ free < table.capacity, table.slot free = none :=
  wellFormed.toCounted.exists_free wellFormed.free

theorem locate_stopsAt (wellFormed : table.WellFormed hash) (key : Key) :
    table.StopsAt (fun entry => entry.1 = key) (table.home hash key)
      (table.locate hash key) := by
  obtain ⟨free, freeLt, isFree⟩ := wellFormed.exists_free
  exact wellFormed.toCounted.locate_stopsAt freeLt (by simp [isFree])

omit [DecidableEq Key] in
/-- An entry stands where its key is looked for, by any search that accepts it. -/
theorem stop_eq (wellFormed : table.WellFormed hash) (taken : table.slot index = some entry)
    {accepts : Key × Value → Bool} {stop : Nat} (accepted : accepts entry = true)
    (sameKey : ∀ other, accepts other = true → other.1 = entry.1)
    (stopsAt : table.StopsAt accepts (table.home hash entry.1) stop) : stop = index := by
  have indexLt := lt_of_slot taken
  have noLater := stopsAt.le_of_stops indexLt (by simp [taken, accepted])
  rcases Nat.lt_or_eq_of_le noLater with before | same
  · have occupied := wellFormed.reaches taken stop stopsAt.lt before
    obtain ⟨found, foundEq⟩ := Option.ne_none_iff_exists'.mp occupied
    exact wellFormed.unique foundEq taken (sameKey found (stopsAt.accepted found foundEq))
  · exact distance_injective wellFormed.power.home_lt stopsAt.lt indexLt same

theorem locate_eq (wellFormed : table.WellFormed hash)
    (taken : table.slot index = some entry) : table.locate hash entry.1 = index :=
  wellFormed.stop_eq taken (by simp) (by simp) (wellFormed.locate_stopsAt entry.1)

theorem find_eq_some_iff (wellFormed : table.WellFormed hash) :
    table.find hash key = some value ↔ table.Holds key value := by
  have nonempty : table.capacity ≠ 0 := Nat.ne_of_gt wellFormed.power.pos
  rw [find, if_neg nonempty, Option.map_eq_some_iff]
  constructor
  · rintro ⟨⟨found, held⟩, taken, rfl⟩
    have same := (wellFormed.locate_stopsAt key).accepted _ taken
    refine ⟨_, taken.trans ?_⟩
    simpa using same
  · rintro ⟨index, taken⟩
    refine ⟨(key, value), ?_, rfl⟩
    rw [wellFormed.locate_eq taken, taken]

end WellFormed

end Searching

/-! ## Inserting -/

theorem Counted.lt_of_free (counted : table.Counted) (indexLt : index < table.capacity)
    (isFree : table.slot index = none) : table.count < table.capacity := by
  rw [counted.count, capacity]
  apply Nat.lt_of_le_of_ne List.countP_le_length
  intro full
  have found := List.mem_of_getElem? (getElem?_slots indexLt)
  have taken := List.countP_eq_length.mp full _ found
  rw [isFree] at taken
  cases taken

theorem Reaches.write (reaches : table.Reaches hash key index) {other : Nat}
    (otherLt : other < table.capacity) :
    (table.write other count (some entry)).Reaches hash key index := by
  intro passed passedLt before
  rw [capacity_write] at passedLt before
  rw [home_write] at before
  rw [slot_write otherLt]
  split_ifs
  · exact Option.some_ne_none entry
  · exact reaches passed passedLt before

/-- What a table holds beside the entry just written. -/
theorem holds_write (indexLt : index < table.capacity) {other : Key} {held : Value} :
    (table.write index count (some (key, value))).Holds other held ↔
      (other = key ∧ held = value) ∨
        ∃ position ≠ index, table.slot position = some (other, held) := by
  simp only [Holds, slot_write indexLt]
  constructor
  · rintro ⟨position, taken⟩
    split_ifs at taken with here
    · cases taken
      exact .inl ⟨rfl, rfl⟩
    · exact .inr ⟨position, here, taken⟩
  · rintro (⟨rfl, rfl⟩ | ⟨position, apart, taken⟩)
    · exact ⟨index, if_pos rfl⟩
    · exact ⟨position, (if_neg apart).trans taken⟩

section Inserting

variable [DecidableEq Key]

/-- A key that is absent is put into the free slot where its search stops. -/
theorem Counted.insertWithoutGrowing_absent (hash : Key → Nat) (value : Value)
    (counted : table.Counted) {free : Nat}
    (freeLt : free < table.capacity) (isFree : table.slot free = none)
    (absent : ∀ index entry, table.slot index = some entry → entry.1 ≠ key) :
    table.slot (table.locate hash key) = none ∧
      table.insertWithoutGrowing hash key value =
        table.write (table.locate hash key) (table.count + 1) (some (key, value)) := by
  have stopsAt : table.StopsAt (fun entry => entry.1 = key) (table.home hash key)
      (table.locate hash key) := counted.locate_stopsAt freeLt (by simp [isFree])
  have isNone : table.slot (table.locate hash key) = none := by
    cases taken : table.slot (table.locate hash key) with
    | none => rfl
    | some entry =>
      have same := stopsAt.accepted entry taken
      exact absurd (by simpa using same) (absent _ entry taken)
  refine ⟨isNone, ?_⟩
  rw [insertWithoutGrowing, isNone]
  rfl

/-- A table that keeps a free slot keeps its form, and holds the new value. -/
theorem WellFormed.insertWithoutGrowing (wellFormed : table.WellFormed hash)
    (room : table.count + 1 < table.capacity) (key : Key) (value : Value) :
    (table.insertWithoutGrowing hash key value).WellFormed hash ∧
      ∀ other held, (table.insertWithoutGrowing hash key value).Holds other held ↔
        (other = key ∧ held = value) ∨ (other ≠ key ∧ table.Holds other held) := by
  have stopsAt := wellFormed.locate_stopsAt key
  cases taken : table.slot (table.locate hash key) with
  | some entry =>
    have same : entry.1 = key := by simpa using stopsAt.accepted entry taken
    subst same
    have written : table.insertWithoutGrowing hash entry.1 value =
        table.write (table.locate hash entry.1) table.count (some (entry.1, value)) := by
      rw [ProbeTable.insertWithoutGrowing, taken]
      rfl
    rw [written]
    refine ⟨⟨wellFormed.toCounted.replace taken, ?_, ?_⟩, ?_⟩
    · rw [capacity_write]
      exact wellFormed.free
    · intro index found foundTaken
      apply Reaches.write _ stopsAt.lt
      rw [slot_write stopsAt.lt] at foundTaken
      split_ifs at foundTaken with here
      · cases foundTaken
        rw [here]
        have placed := wellFormed.reaches taken
        exact placed
      · exact wellFormed.reaches foundTaken
    · intro other held
      rw [holds_write stopsAt.lt]
      constructor
      · rintro (new | ⟨position, apart, old⟩)
        · exact .inl new
        · refine .inr ⟨?_, position, old⟩
          intro same
          exact apart (wellFormed.unique old taken same)
      · rintro (new | ⟨apart, position, old⟩)
        · exact .inl new
        · refine .inr ⟨position, ?_, old⟩
          rintro rfl
          rw [taken, Option.some.injEq] at old
          exact apart (by rw [old])
  | none =>
    have absent : ∀ index entry, table.slot index = some entry → entry.1 ≠ key := by
      rintro index entry found rfl
      rw [wellFormed.locate_eq found, found] at taken
      cases taken
    obtain ⟨-, written⟩ := wellFormed.toCounted.insertWithoutGrowing_absent hash value
      stopsAt.lt taken absent
    rw [written]
    refine ⟨⟨wellFormed.toCounted.put stopsAt.lt taken absent, ?_, ?_⟩, ?_⟩
    · rw [capacity_write]
      exact room
    · intro index found foundTaken
      apply Reaches.write _ stopsAt.lt
      rw [slot_write stopsAt.lt] at foundTaken
      split_ifs at foundTaken with here
      · cases foundTaken
        rw [here]
        intro other otherLt before
        obtain ⟨entry, occupied, -⟩ := stopsAt.passed other otherLt before
        rw [occupied]
        exact Option.some_ne_none entry
      · exact wellFormed.reaches foundTaken
    · intro other held
      rw [holds_write stopsAt.lt]
      constructor
      · rintro (new | ⟨position, -, old⟩)
        · exact .inl new
        · exact .inr ⟨absent position _ old, position, old⟩
      · rintro (new | ⟨-, position, old⟩)
        · exact .inl new
        · refine .inr ⟨position, ?_, old⟩
          rintro rfl
          rw [taken] at old
          cases old

end Inserting

section Growing

variable [DecidableEq Key]

theorem capacity_insertWithoutGrowing :
    (table.insertWithoutGrowing hash key value).capacity = table.capacity := by
  rw [insertWithoutGrowing]
  split <;> exact List.length_set ..

theorem count_insertWithoutGrowing_le :
    (table.insertWithoutGrowing hash key value).count ≤ table.count + 1 := by
  rw [insertWithoutGrowing]
  split
  · exact Nat.le_succ _
  · exact Nat.le_refl _

omit [DecidableEq Key] in
theorem wellFormed_replicate (hash : Key → Nat) (exponent : Nat) :
    ({ slots := List.replicate (2 ^ exponent) none, count := 0 } :
      ProbeTable Key Value).WellFormed hash := by
  have capacityEq : ({ slots := List.replicate (2 ^ exponent) none, count := 0 } :
      ProbeTable Key Value).capacity = 2 ^ exponent := List.length_replicate
  have isFree (index : Nat) : ({ slots := List.replicate (2 ^ exponent) none, count := 0 } :
      ProbeTable Key Value).slot index = none := by
    rw [slot, List.getD_eq_getElem?_getD, List.getElem?_replicate]
    split_ifs <;> rfl
  refine ⟨⟨⟨exponent, capacityEq⟩, ?_, ?_⟩, ?_, ?_⟩
  · intro first second entry other taken
    rw [isFree] at taken
    cases taken
  · simp [List.countP_replicate]
  · rw [capacityEq]
    exact Nat.two_pow_pos exponent
  · intro index entry taken
    rw [isFree] at taken
    cases taken

omit [DecidableEq Key] in
theorem holds_iff_mem : table.Holds key value ↔ some (key, value) ∈ table.slots := by
  constructor
  · rintro ⟨index, taken⟩
    have found := getElem?_slots (lt_of_slot taken)
    rw [taken] at found
    exact List.mem_of_getElem? found
  · intro member
    obtain ⟨index, found⟩ := List.mem_iff_getElem?.mp member
    refine ⟨index, ?_⟩
    rw [slot, List.getD_eq_getElem?_getD, found, Option.getD_some]

/-- The entries of the slots in `front` have been put into a larger table. -/
structure Copied (hash : Key → Nat) (capacity : Nat) (front : List (Option (Key × Value)))
    (copy : ProbeTable Key Value) : Prop where
  wellFormed : copy.WellFormed hash
  capacity : copy.capacity = capacity
  count : copy.count ≤ front.countP Option.isSome
  holds : ∀ key value, copy.Holds key value ↔ some (key, value) ∈ front

/-- The next slot of a table whose keys have one entry each is copied. -/
theorem Copied.step {capacity : Nat} {front back : List (Option (Key × Value))}
    {item : Option (Key × Value)} {copy : ProbeTable Key Value} (unique : ∀ {first second : Nat}
      {entry other : Key × Value}, table.slot first = some entry → table.slot second = some other →
      entry.1 = other.1 → first = second) (split : table.slots = front ++ item :: back)
    (room : table.slots.countP Option.isSome < capacity)
    (copied : Copied hash capacity front copy) :
    Copied hash capacity (front ++ [item]) (copy.insertSlot hash item) := by
  cases item with
  | none =>
    refine ⟨copied.wellFormed, copied.capacity, ?_, ?_⟩
    · simpa [insertSlot] using copied.count
    · simpa [insertSlot] using copied.holds
  | some entry =>
    have total : front.countP Option.isSome + 1 ≤ table.slots.countP Option.isSome := by
      simp [split, List.countP_append]
    have atMost := copied.count
    have capacityEq := copied.capacity
    obtain ⟨form, holds⟩ := copied.wellFormed.insertWithoutGrowing (by omega) entry.1 entry.2
    refine ⟨form, capacity_insertWithoutGrowing.trans capacityEq, ?_, ?_⟩
    · have more : (copy.insertWithoutGrowing hash entry.1 entry.2).count ≤ copy.count + 1 :=
        count_insertWithoutGrowing_le
      simp only [insertSlot, List.countP_append, List.countP_singleton, Option.isSome_some, if_true]
      omega
    · intro key value
      have fresh : some (key, value) ∈ front → key ≠ entry.1 := by
        intro member same
        obtain ⟨index, found⟩ := List.mem_iff_getElem?.mp member
        have indexLt : index < front.length := (List.getElem?_eq_some_iff.mp found).1
        have first : table.slot index = some (key, value) := by
          rw [slot, List.getD_eq_getElem?_getD, split, List.getElem?_append_left indexLt,
            found, Option.getD_some]
        have second : table.slot front.length = some entry := by
          rw [slot, List.getD_eq_getElem?_getD, split, List.getElem?_append_right (Nat.le_refl _),
            Nat.sub_self, List.getElem?_cons_zero, Option.getD_some]
        exact Nat.ne_of_lt indexLt (unique first second same)
      rw [insertSlot, holds, copied.holds]
      simp only [List.mem_append, List.mem_singleton, Option.some.injEq, Prod.ext_iff]
      constructor
      · rintro (new | ⟨-, old⟩)
        · exact .inr new
        · exact .inl old
      · rintro (old | new)
        · exact .inr ⟨fresh old, old⟩
        · exact .inl new

/-- A table without slots, or a well-formed one. -/
def Valid (hash : Key → Nat) (table : ProbeTable Key Value) : Prop :=
  (table.slots = [] ∧ table.count = 0) ∨ table.WellFormed hash

omit [DecidableEq Key] in
theorem capacity_of_empty (empty : table.slots = []) : table.capacity = 0 :=
  congrArg List.length empty

omit [DecidableEq Key] in
theorem not_holds_of_empty (empty : table.slots = []) : ¬table.Holds key value := by
  rw [holds_iff_mem, empty]
  exact List.not_mem_nil

/-- A grown table has at least twice the slots, and holds the same. -/
theorem Valid.grow (valid : table.Valid hash) :
    (table.grow hash).WellFormed hash ∧ table.count + 1 < (table.grow hash).capacity ∧
      (table.grow hash).count ≤ table.count ∧
      ∀ key value, (table.grow hash).Holds key value ↔ table.Holds key value := by
  have unique : ∀ {first second : Nat} {entry other : Key × Value},
      table.slot first = some entry → table.slot second = some other → entry.1 = other.1 →
        first = second := by
    rcases valid with ⟨empty, -⟩ | wellFormed
    · intro first second entry other taken
      have outside := lt_of_slot taken
      rw [capacity, empty] at outside
      exact absurd outside (Nat.not_lt_zero _)
    · exact wellFormed.unique
  have counted : table.count = table.slots.countP Option.isSome := by
    rcases valid with ⟨empty, zero⟩ | wellFormed
    · rw [zero, empty]
      rfl
    · exact wellFormed.count
  obtain ⟨exponent, larger, room⟩ : ∃ exponent,
      (if table.capacity = 0 then 16 else table.capacity * 2) = 2 ^ exponent ∧
        table.count + 1 < 2 ^ exponent := by
    rcases valid with ⟨empty, zero⟩ | wellFormed
    · refine ⟨4, ?_, by omega⟩
      rw [capacity, empty]
      rfl
    · obtain ⟨exponent, power⟩ := wellFormed.power
      have positive := wellFormed.power.pos
      have free := wellFormed.free
      refine ⟨exponent + 1, ?_, ?_⟩
      · rw [if_neg (Nat.ne_of_gt positive), power, Nat.pow_succ]
      · rw [Nat.pow_succ, ← power]
        omega
  have copied : Copied hash (2 ^ exponent) table.slots (table.slots.foldl (insertSlot hash)
      { slots := List.replicate (2 ^ exponent) none, count := 0 }) :=
    foldl_induct (Copied hash (2 ^ exponent))
    (fun _ _ _ _ split copied => copied.step unique split (by omega))
    (⟨wellFormed_replicate hash exponent, List.length_replicate, Nat.zero_le _, by
      intro key value
      rw [holds_iff_mem]
      simp⟩ : Copied hash (2 ^ exponent) []
        ({ slots := List.replicate (2 ^ exponent) none, count := 0 } : ProbeTable Key Value))
  have grown : table.grow hash = table.slots.foldl (insertSlot hash)
      { slots := List.replicate (2 ^ exponent) none, count := 0 } := by
    rw [ProbeTable.grow, larger]
  rw [grown]
  refine ⟨copied.wellFormed, ?_, ?_, ?_⟩
  · rw [copied.capacity]
    exact room
  · rw [counted]
    exact copied.count
  · intro key value
    rw [copied.holds, holds_iff_mem]

/-- An insertion into a valid table. -/
theorem Valid.insert (valid : table.Valid hash) (key : Key) (value : Value) :
    (table.insert hash key value).WellFormed hash ∧
      ∀ other held, (table.insert hash key value).Holds other held ↔
        (other = key ∧ held = value) ∨ (other ≠ key ∧ table.Holds other held) := by
  rw [ProbeTable.insert]
  split_ifs with full
  · obtain ⟨wellFormed, room, atMost, holds⟩ := valid.grow
    obtain ⟨inserted, holdsInserted⟩ := wellFormed.insertWithoutGrowing (by omega) key value
    refine ⟨inserted, ?_⟩
    intro other held
    rw [holdsInserted, holds]
  · rcases valid with ⟨empty, -⟩ | wellFormed
    · exact absurd (.inl (capacity_of_empty empty)) full
    · apply wellFormed.insertWithoutGrowing
      omega

/-- A search of a valid table finds what the table holds. -/
theorem Valid.find_eq_some_iff (valid : table.Valid hash) :
    table.find hash key = some value ↔ table.Holds key value := by
  rcases valid with ⟨empty, -⟩ | wellFormed
  · rw [find, if_pos (capacity_of_empty empty)]
    simp [not_holds_of_empty empty]
  · exact wellFormed.find_eq_some_iff

end Growing

end ProbeTable

end DaveCC.Container
