import DaveCC.Container.BitSetEffects

/-!
# Scans of a bit set

The loops that look at every word of a set, over the ascending list of the positions of
its bits. The count is the length of the list, a search for a set bit ends at its head,
and an iterator goes through it: what is visited, followed by what lies ahead, is always
the whole list.
-/

namespace DaveCC.Container

open Arith (setPositions trailingZeros populationCount)
open BitSet (Word)

/-- The positions of the set bits of an array, whose first word has the given index. -/
def bitPositions : List Word → ℕ → List ℕ
  | [], _ => []
  | value :: rest, index =>
    (setPositions value).map (index * 64 + ·) ++ bitPositions rest (index + 1)

variable {index number : ℕ}

theorem mem_bitPositions {values : List Word} :
    number ∈ bitPositions values index ↔
      index ≤ number / 64 ∧
        (values.getD (number / 64 - index) 0).getLsbD (number % 64) = true := by
  induction values generalizing index with
  | nil => simp [bitPositions]
  | cons value rest ih =>
    rw [bitPositions, List.mem_append, ih, List.mem_map]
    constructor
    · intro inside
      rcases inside with ⟨position, isSet, rfl⟩ | ⟨later, isSet⟩
      · rw [Arith.mem_setPositions] at isSet
        have below := BitVec.lt_of_getLsbD isSet
        have quotient : (index * 64 + position) / 64 = index := by omega
        have remainder : (index * 64 + position) % 64 = position := by omega
        rw [quotient, remainder, Nat.sub_self, List.getD_cons_zero]
        exact ⟨Nat.le_refl _, isSet⟩
      · have shift : number / 64 - index = number / 64 - (index + 1) + 1 := by omega
        rw [shift, List.getD_cons_succ]
        exact ⟨by omega, isSet⟩
    · intro ⟨reached, isSet⟩
      rcases Nat.eq_or_lt_of_le reached with same | later
      · refine .inl ⟨number % 64, ?_, by omega⟩
        rw [← same, Nat.sub_self, List.getD_cons_zero] at isSet
        exact Arith.mem_setPositions.mpr isSet
      · have shift : number / 64 - index = number / 64 - (index + 1) + 1 := by omega
        rw [shift, List.getD_cons_succ] at isSet
        exact .inr ⟨later, isSet⟩

theorem pairwise_bitPositions (values : List Word) (index : ℕ) :
    (bitPositions values index).Pairwise (· < ·) := by
  induction values generalizing index with
  | nil => exact .nil
  | cons value rest ih =>
    rw [bitPositions, List.pairwise_append]
    refine ⟨?_, ih _, ?_⟩
    · rw [List.pairwise_map]
      exact (Arith.pairwise_setPositions value).imp fun less => Nat.add_lt_add_left less _
    · intro first inFirst second inRest
      obtain ⟨position, isSet, rfl⟩ := List.mem_map.mp inFirst
      have below := BitVec.lt_of_getLsbD (Arith.mem_setPositions.mp isSet)
      have later := (mem_bitPositions.mp inRest).1
      omega

/-- The positions of a set are its members in order. -/
theorem bitPositions_eq_sort (set : BitSet) :
    bitPositions set.value 0 = set.members.sort (· ≤ ·) := by
  apply List.Pairwise.eq_of_mem_iff (r := (· < ·)) (pairwise_bitPositions _ _)
    (Finset.sortedLT_sort _).pairwise
  intro number
  rw [mem_bitPositions, Finset.mem_sort, BitSet.mem_members, BitSet.bit, BitSet.word, Nat.sub_zero]
  exact and_iff_right (Nat.zero_le _)

theorem bitPositions_drop (set : BitSet) (inside : index < set.capacity) :
    bitPositions (set.value.drop index) index =
      (setPositions (set.word index)).map (index * 64 + ·) ++
        bitPositions (set.value.drop (index + 1)) (index + 1) := by
  have inValue : index < set.value.length := inside
  rw [List.drop_eq_getElem_cons inValue, bitPositions, BitSet.word,
    List.getD_eq_getElem _ _ inValue]

theorem foldl_populationCount (values : List Word) (index count : ℕ) :
    values.foldl (fun count value => count + populationCount value) count =
      count + (bitPositions values index).length := by
  induction values generalizing index count with
  | nil => rfl
  | cons value rest ih =>
    rw [List.foldl_cons, ih (index + 1), bitPositions, List.length_append, List.length_map,
      Arith.length_setPositions, Nat.add_assoc]

theorem bitSetCount_eq (set : BitSet) : bitSetCount set = set.members.card := by
  rw [bitSetCount, foldl_populationCount set.value 0, Nat.zero_add, bitPositions_eq_sort,
    Finset.length_sort]

theorem findFirst_eq (view : Word → Word) (values : List Word) (index : ℕ) :
    findFirst view values index = (bitPositions (values.map view) index).headD sizeMax := by
  induction values generalizing index with
  | nil => rfl
  | cons value rest ih =>
    rw [findFirst, List.map_cons, bitPositions, findFirstSet64]
    rcases eq_or_ne (view value) 0 with zero | nonzero
    · rw [if_pos zero, if_pos rfl, ih, zero, Arith.setPositions_zero, List.map_nil, List.nil_append]
    · rw [if_neg nonzero, if_neg (Nat.succ_ne_zero _), Arith.setPositions_of_ne_zero nonzero,
        List.map_cons, List.cons_append, List.headD_cons]
      omega

/-- The least of some numbers, or `(size_t)-1`. -/
def leastMember (numbers : Finset ℕ) : ℕ :=
  if nonempty : numbers.Nonempty then numbers.min' nonempty else sizeMax

/-- The head of an ascending list is its least element. -/
theorem leastMember_eq_headD (numbers : Finset ℕ) :
    leastMember numbers = (numbers.sort (· ≤ ·)).headD sizeMax := by
  unfold leastMember
  split
  next nonempty =>
    have positive : 0 < (numbers.sort (· ≤ ·)).length := by
      rw [Finset.length_sort]
      exact Finset.card_pos.mpr nonempty
    rw [← Finset.sorted_zero_eq_min' (h := positive), List.headD_eq_head?_getD,
      List.head?_eq_getElem?, List.getElem?_eq_getElem positive]
    rfl
  next empty =>
    rw [Finset.not_nonempty_iff_eq_empty.mp empty, Finset.sort_empty]
    rfl

theorem bitSetFindFirstSet_eq (set : BitSet) :
    bitSetFindFirstSet set = leastMember set.members := by
  rw [bitSetFindFirstSet, findFirst_eq, List.map_id, bitPositions_eq_sort, leastMember_eq_headD]

/-- The least number that is not among some. -/
def leastNonmember (numbers : Finset ℕ) : ℕ :=
  Nat.find (Infinite.exists_notMem_finset numbers)

theorem leastNonmember_eq {numbers : Finset ℕ} (absent : number ∉ numbers)
    (present : ∀ smaller < number, smaller ∈ numbers) : leastNonmember numbers = number := by
  rw [leastNonmember, Nat.find_eq_iff]
  exact ⟨absent, fun smaller less => not_not_intro (present smaller less)⟩

variable {set : BitSet}

/-- A clear bit of an allocated word, by its number. -/
theorem mem_bitPositions_not :
    number ∈ bitPositions (set.value.map (~~~·)) 0 ↔
      number < 64 * set.capacity ∧ number ∉ set.members := by
  have below : number % 64 < 64 := Nat.mod_lt _ (by decide)
  rw [mem_bitPositions, Nat.sub_zero, BitSet.mem_members, BitSet.bit, BitSet.word,
    List.getD_eq_getElem?_getD, List.getElem?_map, List.getD_eq_getElem?_getD]
  rcases Nat.lt_or_ge (number / 64) set.value.length with inside | outside
  · have inRange : number < 64 * set.capacity := by
      rw [BitSet.capacity]
      omega
    simp [List.getElem?_eq_getElem inside, below, inRange]
  · have outOfRange : ¬number < 64 * set.capacity := by
      rw [BitSet.capacity]
      omega
    simp [List.getElem?_eq_none outside, outOfRange]

/-- The search for a clear bit finds the least number outside the set exactly when some
allocated word is not full. -/
theorem bitSetFindFirstClear_eq_iff (set : BitSet) :
    bitSetFindFirstClear set = leastNonmember set.members ↔
      ∃ value ∈ set.value, value ≠ BitVec.allOnes 64 := by
  have ascending := pairwise_bitPositions (set.value.map (~~~·)) 0
  have clear : ∀ number, number ∈ bitPositions (set.value.map (~~~·)) 0 ↔
      number < 64 * set.capacity ∧ number ∉ set.members := fun _ => mem_bitPositions_not
  rw [bitSetFindFirstClear, findFirst_eq]
  cases positions : bitPositions (set.value.map (~~~·)) 0 with
  | nil =>
    rw [positions] at clear
    have full : ∀ number < 64 * set.capacity, number ∈ set.members := by
      intro number inside
      by_contra absent
      exact List.not_mem_nil ((clear number).mpr ⟨inside, absent⟩)
    have first : leastNonmember set.members = 64 * set.capacity := by
      apply leastNonmember_eq _ full
      intro inside
      have := BitSet.lt_capacity_of_bit (BitSet.mem_members.mp inside)
      omega
    rw [first, List.headD_nil, sizeMax]
    constructor
    · intro same
      omega
    · rintro ⟨value, inside, notFull⟩
      absurd notFull
      obtain ⟨index, found⟩ := List.mem_iff_getElem?.mp inside
      apply BitVec.eq_of_getLsbD_eq
      intro position below
      have inRange : index < set.capacity := (List.getElem?_eq_some_iff.mp found).1
      have isSet := BitSet.mem_members.mp (full (64 * index + position) (by omega))
      have quotient : (64 * index + position) / 64 = index := by omega
      have remainder : (64 * index + position) % 64 = position := by omega
      rw [BitSet.bit, quotient, remainder, BitSet.word, List.getD_eq_getElem?_getD, found] at isSet
      rw [BitVec.getLsbD_allOnes, decide_eq_true below]
      exact isSet
  | cons first rest =>
    rw [positions] at clear ascending
    obtain ⟨inside, absent⟩ := (clear first).mp List.mem_cons_self
    have present : ∀ smaller < first, smaller ∈ set.members := by
      intro smaller less
      by_contra missing
      have later := (clear smaller).mpr ⟨by omega, missing⟩
      rcases List.mem_cons.mp later with rfl | later
      · omega
      · have := List.rel_of_pairwise_cons ascending later
        omega
    rw [List.headD_cons, leastNonmember_eq absent present]
    refine ⟨fun _ => ?_, fun _ => rfl⟩
    have inRange : first / 64 < set.value.length := by
      have : first < 64 * set.value.length := inside
      omega
    refine ⟨set.value[first / 64], List.getElem_mem inRange, ?_⟩
    intro full
    apply absent
    have below : first % 64 < 64 := Nat.mod_lt _ (by decide)
    rw [BitSet.mem_members, BitSet.bit, BitSet.word, List.getD_eq_getElem _ _ inRange, full,
      BitVec.getLsbD_allOnes, decide_eq_true below]

/-! ## Iterating -/

/-- The values that an iterator still has to visit. -/
def bitSetAhead (set : BitSet) (iterator : BitSetIterator) : List ℕ :=
  (setPositions iterator.remaining).map (iterator.wordOffset * 64 + ·) ++
    bitPositions (set.value.drop (iterator.wordOffset + 1)) (iterator.wordOffset + 1)

/-- An iterator stands at the first of the bits that remain of its word. -/
structure BitSetIterator.Stands (set : BitSet) (iterator : BitSetIterator) : Prop where
  remains : iterator.wordOffset < set.capacity → iterator.remaining ≠ 0
  first : iterator.wordOffset < set.capacity → iterator.bitOffset = trailingZeros iterator.remaining
  ended : set.capacity ≤ iterator.wordOffset → iterator.remaining = 0

theorem bitSetIteratorDone_eq (set : BitSet) (iterator : BitSetIterator) :
    bitSetIteratorDone set iterator = decide (set.capacity ≤ iterator.wordOffset) := by
  unfold bitSetIteratorDone
  cases set with
  | mk value =>
    cases value with
    | nil => simp [BitSet.capacity]
    | cons => simp

theorem skipZeroWords_spec (set : BitSet) (index : ℕ) :
    (skipZeroWords set index < set.capacity → set.word (skipZeroWords set index) ≠ 0) ∧
      bitPositions (set.value.drop (skipZeroWords set index)) (skipZeroWords set index) =
        bitPositions (set.value.drop index) index := by
  fun_induction skipZeroWords set index with
  | case1 index zero ih =>
    refine ⟨ih.1, ih.2.trans ?_⟩
    rw [bitPositions_drop set zero.1, zero.2, Arith.setPositions_zero, List.map_nil,
      List.nil_append]
  | case2 index stops => exact ⟨fun inside zero => stops ⟨inside, zero⟩, rfl⟩

/-- Where an iterator enters a word after skipping zeros. -/
theorem stands_enterWord (set : BitSet) (index : ℕ) :
    (enterWord set (skipZeroWords set index)).Stands set ∧
      bitSetAhead set (enterWord set (skipZeroWords set index)) =
        bitPositions (set.value.drop index) index := by
  have ⟨nonzero, same⟩ := skipZeroWords_spec set index
  generalize skipZeroWords set index = entered at nonzero same
  rw [← same]
  unfold enterWord
  split
  next inside =>
    refine ⟨⟨nonzero, fun _ => rfl, fun outside => absurd inside (Nat.not_lt.mpr outside)⟩, ?_⟩
    rw [bitPositions_drop set inside]
    rfl
  next outside =>
    have past : set.value.length ≤ entered := Nat.not_lt.mp outside
    refine ⟨⟨fun inside => absurd inside outside, fun inside => absurd inside outside,
      fun _ => rfl⟩, ?_⟩
    rw [bitSetAhead, Arith.setPositions_zero, List.drop_eq_nil_of_le past,
      List.drop_eq_nil_of_le (Nat.le_succ_of_le past)]
    rfl

/-- An iterator that is not done visits the first of the values ahead. -/
theorem bitSetIteratorNext_spec {iterator : BitSetIterator} (stands : iterator.Stands set)
    (inside : iterator.wordOffset < set.capacity) :
    (bitSetIteratorNext set iterator).Stands set ∧
      bitSetAhead set iterator =
        bitSetIteratorValue iterator :: bitSetAhead set (bitSetIteratorNext set iterator) := by
  have nonzero := stands.remains inside
  have notDone : bitSetIteratorDone set iterator = false := by
    rw [bitSetIteratorDone_eq, decide_eq_false_iff_not]
    exact Nat.not_le.mpr inside
  rw [bitSetAhead, Arith.setPositions_of_ne_zero nonzero, ← stands.first inside, List.map_cons,
    List.cons_append, bitSetIteratorNext, notDone, if_neg Bool.false_ne_true]
  simp only
  split
  next remains =>
    refine ⟨⟨fun _ => remains, fun _ => rfl, fun outside => ?_⟩, rfl⟩
    exact absurd inside (Nat.not_lt.mpr outside)
  next exhausted =>
    have ⟨standsNext, same⟩ := stands_enterWord set (iterator.wordOffset + 1)
    refine ⟨standsNext, ?_⟩
    have zero : iterator.remaining &&& (iterator.remaining - 1) = 0 := not_not.mp exhausted
    rw [same, show BitVec.ofNat 64 1 = 1 from rfl, zero, Arith.setPositions_zero]
    rfl

/-- The loop over an iterator visits the members in order, each once. -/
theorem bitSetVisited_eq (set : BitSet) {fuel : ℕ} (enough : set.members.card ≤ fuel) :
    bitSetVisited set fuel = some (set.members.sort (· ≤ ·)) := by
  have ⟨stands, ahead⟩ := stands_enterWord set 0
  have preserves : ∀ state : BitSetIterator × List ℕ,
      (state.1.Stands set ∧ state.2 ++ bitSetAhead set state.1 = set.members.sort (· ≤ ·)) →
      (!bitSetIteratorDone set state.1) = true →
      ∃ next, some (bitSetIteratorNext set state.1, state.2 ++ [bitSetIteratorValue state.1]) =
          some next ∧
        (next.1.Stands set ∧ next.2 ++ bitSetAhead set next.1 = set.members.sort (· ≤ ·)) ∧
        (bitSetAhead set next.1).length < (bitSetAhead set state.1).length := by
    intro ⟨iterator, visited⟩ ⟨stands, whole⟩ continues
    have inside : iterator.wordOffset < set.capacity := by
      rw [bitSetIteratorDone_eq, Bool.not_eq_true', decide_eq_false_iff_not] at continues
      exact Nat.not_le.mp continues
    have ⟨standsNext, split⟩ := bitSetIteratorNext_spec stands inside
    refine ⟨_, rfl, ⟨standsNext, ?_⟩, ?_⟩
    · rw [← whole, split, List.append_assoc, List.singleton_append]
    · simp only [split, List.length_cons]
      exact Nat.lt_succ_self _
  have whole : [] ++ bitSetAhead set (bitSetIteratorStart set) = set.members.sort (· ≤ ·) := by
    rw [bitSetIteratorStart, ahead, List.drop_zero, bitPositions_eq_sort, List.nil_append]
  have bounded : (bitSetAhead set (bitSetIteratorStart set)).length ≤ fuel := by
    rw [← List.nil_append (bitSetAhead set _), whole, Finset.length_sort]
    exact enough
  have rule := @Loop.exists_runWhile (BitSetIterator × List ℕ)
    (fun state => !bitSetIteratorDone set state.1)
    (fun state =>
      some (bitSetIteratorNext set state.1, state.2 ++ [bitSetIteratorValue state.1]))
    (fun state => state.1.Stands set ∧
      state.2 ++ bitSetAhead set state.1 = set.members.sort (· ≤ ·))
    (fun state => (bitSetAhead set state.1).length)
    preserves fuel (bitSetIteratorStart set, []) ⟨stands, whole⟩ bounded
  obtain ⟨⟨iterator, visited⟩, returns, ⟨stands, whole⟩, done⟩ := rule
  have outside : set.capacity ≤ iterator.wordOffset := by
    simpa [bitSetIteratorDone_eq] using done
  have past : set.value.length ≤ iterator.wordOffset := outside
  rw [bitSetAhead, stands.ended outside, Arith.setPositions_zero, List.drop_eq_nil_of_le
    (Nat.le_succ_of_le past), List.map_nil, List.nil_append, bitPositions, List.append_nil] at whole
  rw [bitSetVisited, returns, ← whole]
  rfl

end DaveCC.Container

/-!
## Runs of operations on bit sets

A run is a sequence of operations and questions on several sets, which may all have
different capacities and may be both operand and result. It refines the same run on
finite sets of naturals: the sets have the same members throughout, and every question
has the same answer, provided the numbers fit and a search for a clear bit is asked of a
set with one in its allocated words.
-/

namespace DaveCC.Container

inductive BitSetCall where
  | insert (set index : ℕ) | remove (set index : ℕ) | clear (set : ℕ) | fill (set bitCount : ℕ)
  | union (set1 set2 result : ℕ) | intersection (set1 set2 result : ℕ)
  | unionInPlace (dest src : ℕ) | copy (copied source : ℕ)
  | contains (set index : ℕ) | equal (set1 set2 : ℕ) | count (set : ℕ)
  | findFirstSet (set : ℕ) | findFirstClear (set : ℕ) | iterate (set : ℕ)
  deriving DecidableEq, Repr

/-- What a call returns. -/
inductive BitSetAnswer where
  | nothing | truth (value : Bool) | size (value : ℕ) | visited (values : Option (List ℕ))
  deriving DecidableEq, Repr

namespace BitSetCall

/-- The sets after a call, and what it returns. -/
def run (sets : BitSets) : BitSetCall → BitSets × BitSetAnswer
  | insert set index =>
    (Function.update sets set (bitSetInsert (sets set) index), .nothing)
  | remove set index =>
    (Function.update sets set (bitSetRemove (sets set) index), .nothing)
  | clear set => (Function.update sets set (bitSetClear (sets set)), .nothing)
  | fill set bitCount => (Function.update sets set (bitSetFill (sets set) bitCount), .nothing)
  | union set1 set2 result => (bitSetUnion sets set1 set2 result, .nothing)
  | intersection set1 set2 result => (bitSetIntersection sets set1 set2 result, .nothing)
  | unionInPlace dest src => (bitSetUnionInPlace sets dest src, .nothing)
  | copy copied source => (bitSetCopy sets copied source, .nothing)
  | contains set index => (sets, .truth (bitSetContains (sets set) index))
  | equal set1 set2 => (sets, .truth (bitSetEqual (sets set1) (sets set2)))
  | count set => (sets, .size (bitSetCount (sets set)))
  | findFirstSet set => (sets, .size (bitSetFindFirstSet (sets set)))
  | findFirstClear set => (sets, .size (bitSetFindFirstClear (sets set)))
  | iterate set => (sets, .visited (bitSetVisited (sets set) (64 * (sets set).capacity)))

/-- The same call on finite sets of naturals. -/
def means (numbers : ℕ → Finset ℕ) : BitSetCall → (ℕ → Finset ℕ) × BitSetAnswer
  | insert set index => (Function.update numbers set (Insert.insert index (numbers set)), .nothing)
  | remove set index => (Function.update numbers set ((numbers set).erase index), .nothing)
  | clear set => (Function.update numbers set ∅, .nothing)
  | fill set bitCount => (Function.update numbers set (Finset.range bitCount), .nothing)
  | union set1 set2 result =>
    (Function.update numbers result (numbers set1 ∪ numbers set2), .nothing)
  | intersection set1 set2 result =>
    (Function.update numbers result (numbers set1 ∩ numbers set2), .nothing)
  | unionInPlace dest src =>
    (Function.update numbers dest (numbers dest ∪ numbers src), .nothing)
  | copy copied source => (Function.update numbers copied (numbers source), .nothing)
  | contains set index => (numbers, .truth (decide (index ∈ numbers set)))
  | equal set1 set2 => (numbers, .truth (decide (numbers set1 = numbers set2)))
  | count set => (numbers, .size (numbers set).card)
  | findFirstSet set => (numbers, .size (leastMember (numbers set)))
  | findFirstClear set => (numbers, .size (leastNonmember (numbers set)))
  | iterate set => (numbers, .visited (some ((numbers set).sort (· ≤ ·))))

/-- The numbers of a call fit, and the set that is searched for a clear bit has one in
its allocated words. -/
def Permitted (sets : BitSets) : BitSetCall → Prop
  | insert _ index => index + 64 < 2 ^ 64
  | fill _ bitCount => bitCount + 63 < 2 ^ 64
  | findFirstClear set => ∃ value ∈ (sets set).value, value ≠ BitVec.allOnes 64
  | _ => True

/-- A permitted call does what it means, and returns what it means. -/
theorem run_eq_means {sets : BitSets} {call : BitSetCall} (permitted : call.Permitted sets) :
    membersOf (call.run sets).1 = (call.means (membersOf sets)).1 ∧
      (call.run sets).2 = (call.means (membersOf sets)).2 := by
  cases call with
  | insert set index =>
    refine ⟨?_, rfl⟩
    rw [run, membersOf_update, members_bitSetInsert _ permitted]
    rfl
  | remove set index =>
    refine ⟨?_, rfl⟩
    rw [run, membersOf_update, members_bitSetRemove]
    rfl
  | clear set =>
    refine ⟨?_, rfl⟩
    rw [run, membersOf_update, members_bitSetClear]
    rfl
  | fill set bitCount =>
    refine ⟨?_, rfl⟩
    rw [run, membersOf_update, members_bitSetFill _ permitted]
    rfl
  | union set1 set2 result => exact ⟨membersOf_bitSetUnion sets set1 set2 result, rfl⟩
  | intersection set1 set2 result =>
    exact ⟨membersOf_bitSetIntersection sets set1 set2 result, rfl⟩
  | unionInPlace dest src => exact ⟨membersOf_bitSetUnionInPlace sets dest src, rfl⟩
  | copy copied source => exact ⟨membersOf_bitSetCopy sets copied source, rfl⟩
  | contains set index => exact ⟨rfl, congrArg _ (bitSetContains_eq _ _)⟩
  | equal set1 set2 => exact ⟨rfl, congrArg _ (bitSetEqual_eq _ _)⟩
  | count set => exact ⟨rfl, congrArg _ (bitSetCount_eq _)⟩
  | findFirstSet set => exact ⟨rfl, congrArg _ (bitSetFindFirstSet_eq _)⟩
  | findFirstClear set =>
    exact ⟨rfl, congrArg _ ((bitSetFindFirstClear_eq_iff _).mpr permitted)⟩
  | iterate set =>
    refine ⟨rfl, congrArg _ (bitSetVisited_eq _ ?_)⟩
    exact (Finset.card_filter_le _ _).trans_eq (Finset.card_range _)

end BitSetCall

/-- The sets after a run, and its answers in order. -/
def runBitSetCalls (sets : BitSets) : List BitSetCall → BitSets × List BitSetAnswer
  | [] => (sets, [])
  | call :: rest =>
    let (sets, answer) := call.run sets
    let (sets, answers) := runBitSetCalls sets rest
    (sets, answer :: answers)

/-- The numbers after a run on finite sets, and its answers in order. -/
def bitSetCallsMean (numbers : ℕ → Finset ℕ) :
    List BitSetCall → (ℕ → Finset ℕ) × List BitSetAnswer
  | [] => (numbers, [])
  | call :: rest =>
    let (numbers, answer) := call.means numbers
    let (numbers, answers) := bitSetCallsMean numbers rest
    (numbers, answer :: answers)

/-- Every call of a run is permitted where it is made. -/
def PermittedCalls (sets : BitSets) : List BitSetCall → Prop
  | [] => True
  | call :: rest => call.Permitted sets ∧ PermittedCalls (call.run sets).1 rest

/-- `BitSetInit` for every set. -/
def emptyBitSets : BitSets := fun _ => {}

theorem runBitSetCalls_refines {calls : List BitSetCall} {sets : BitSets}
    (permitted : PermittedCalls sets calls) :
    membersOf (runBitSetCalls sets calls).1 = (bitSetCallsMean (membersOf sets) calls).1 ∧
      (runBitSetCalls sets calls).2 = (bitSetCallsMean (membersOf sets) calls).2 := by
  induction calls generalizing sets with
  | nil => exact ⟨rfl, rfl⟩
  | cons call rest ih =>
    have ⟨sameMembers, sameAnswer⟩ := BitSetCall.run_eq_means permitted.1
    have ⟨sameAfter, sameAnswers⟩ := ih permitted.2
    rw [sameMembers] at sameAfter sameAnswers
    refine ⟨sameAfter, ?_⟩
    rw [runBitSetCalls, bitSetCallsMean]
    simp only [sameAnswer, sameAnswers]

/-- Runs on bit sets that start empty, of any capacities that the run gives them, refine
runs on finite sets of naturals. -/
theorem bitSets_refine_finsets {calls : List BitSetCall}
    (permitted : PermittedCalls emptyBitSets calls) :
    membersOf (runBitSetCalls emptyBitSets calls).1 = (bitSetCallsMean (fun _ => ∅) calls).1 ∧
      (runBitSetCalls emptyBitSets calls).2 = (bitSetCallsMean (fun _ => ∅) calls).2 :=
  runBitSetCalls_refines permitted

/-- Sets of one and of two words, and a search for a clear bit past a full word. -/
theorem bitSets_refine_finsets_example :
    (runBitSetCalls emptyBitSets [.fill 0 64, .insert 1 70, .union 0 1 2, .findFirstClear 2]).2 =
    (bitSetCallsMean (fun _ => ∅)
      [.fill 0 64, .insert 1 70, .union 0 1 2, .findFirstClear 2]).2 := by
  have permitted : PermittedCalls emptyBitSets
      [.fill 0 64, .insert 1 70, .union 0 1 2, .findFirstClear 2] := by
    have words : ((runBitSetCalls emptyBitSets [.fill 0 64, .insert 1 70, .union 0 1 2]).1 2).value =
        [BitVec.allOnes 64, 64] := by
      decide +kernel
    have clear : (64 : BitSet.Word) ≠ BitVec.allOnes 64 := by decide
    have inside : (64 : BitSet.Word) ∈ [BitVec.allOnes 64, 64] := List.mem_cons_of_mem _ (.head _)
    exact ⟨(by decide : 64 + 63 < 2 ^ 64), (by decide : 70 + 64 < 2 ^ 64), trivial,
      ⟨64, words ▸ inside, clear⟩, trivial⟩
  exact (bitSets_refine_finsets permitted).2

/-- A set whose only word is full has no answer for the search of a clear bit. -/
theorem findFirstClear_of_full :
    (runBitSetCalls emptyBitSets [.fill 0 64, .findFirstClear 0]).2 ≠
      (bitSetCallsMean (fun _ => ∅) [.fill 0 64, .findFirstClear 0]).2 := by
  have concrete : (runBitSetCalls emptyBitSets [.fill 0 64, .findFirstClear 0]).2 =
      [.nothing, .size sizeMax] := by
    decide +kernel
  have least : leastNonmember (Finset.range 64) = 64 :=
    leastNonmember_eq (by simp) fun smaller less => Finset.mem_range.mpr less
  have abstracted : (bitSetCallsMean (fun _ => ∅) [.fill 0 64, .findFirstClear 0]).2 =
      [.nothing, .size 64] := by
    simp [bitSetCallsMean, BitSetCall.means, least]
  rw [concrete, abstracted]
  decide

end DaveCC.Container
