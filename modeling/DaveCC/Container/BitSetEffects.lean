import DaveCC.Container.BitSet
import Mathlib.Data.Finset.Sort

/-!
# What the operations on bit sets do

Each operation as an equation on the words of the sets it writes, and from that as an
operation on their members. The loops of the binary operations write the words of the
result in order and read only words that they have not written yet, so an operand may be
the result.
-/

namespace DaveCC.Container

open BitSet (Word)

theorem doubleCapacity_spec {required capacity : ℕ} (positive : 0 < capacity) :
    required ≤ doubleCapacity required capacity positive ∧
      0 < doubleCapacity required capacity positive := by
  fun_induction doubleCapacity required capacity positive with
  | case1 capacity positive small large => omega
  | case2 capacity positive small fits ih => exact ih
  | case3 capacity positive enough => omega

theorem growthCapacity_spec (current required : ℕ) :
    required ≤ growthCapacity current required ∧ 0 < growthCapacity current required := by
  unfold growthCapacity
  split
  · exact doubleCapacity_spec _
  · exact doubleCapacity_spec _

namespace BitSet

variable {set : BitSet}

theorem word_mk_replicate_zero (count index : ℕ) :
    ({ value := List.replicate count 0 } : BitSet).word index = 0 := by
  rw [word, List.getD_eq_getElem?_getD, List.getElem?_replicate]
  split <;> rfl

@[simp] theorem word_growWords (set : BitSet) (wordsRequired index : ℕ) :
    (growWords set wordsRequired).word index = set.word index := by
  unfold growWords
  split
  next empty =>
    rw [word_mk_replicate_zero, word_of_capacity_le]
    rw [capacity, List.isEmpty_iff.mp empty]
    exact Nat.zero_le _
  split
  next nonempty small =>
    rcases Nat.lt_or_ge index set.capacity with inside | outside
    · exact List.getD_append _ _ _ _ inside
    · rw [word_of_capacity_le outside, word, List.getD_append_right _ _ _ _ outside]
      exact word_mk_replicate_zero _ _
  next => rfl

theorem le_capacity_growWords (set : BitSet) (wordsRequired : ℕ) :
    wordsRequired ≤ (growWords set wordsRequired).capacity := by
  have enough := (growthCapacity_spec set.capacity wordsRequired).1
  unfold growWords
  split
  next => simpa [capacity] using enough
  split
  next small =>
    simp only [capacity, List.length_append, List.length_replicate] at enough small ⊢
    omega
  next large => exact Nat.not_lt.mp large

@[simp] theorem word_makeRoom (set : BitSet) (words index : ℕ) :
    (makeRoom set words).word index = set.word index := by
  unfold makeRoom
  split
  · rfl
  · exact word_growWords set words index

theorem le_capacity_makeRoom (set : BitSet) (words : ℕ) :
    words ≤ (makeRoom set words).capacity := by
  unfold makeRoom
  split
  · omega
  · exact le_capacity_growWords set words

theorem word_set (set : BitSet) (index other : ℕ) (value : Word) :
    ({ value := set.value.set index value } : BitSet).word other =
      if other = index ∧ index < set.capacity then value else set.word other := by
  rw [word, word, List.getD_eq_getElem?_getD, List.getElem?_set, List.getD_eq_getElem?_getD]
  rcases eq_or_ne index other with rfl | ne
  · rcases Nat.lt_or_ge index set.capacity with inside | outside
    · have inside' : index < set.value.length := inside
      simp [inside, inside']
    · have outside' : ¬index < set.value.length := Nat.not_lt.mpr outside
      have outside'' : ¬index < set.capacity := Nat.not_lt.mpr outside
      simp [outside', outside'']
  · rw [if_neg ne, if_neg fun same => ne same.1.symm]

theorem word_modify (set : BitSet) (index other : ℕ) (change : Word → Word) :
    ({ value := set.value.modify index change } : BitSet).word other =
      if other = index ∧ index < set.capacity then change (set.word index)
      else set.word other := by
  rw [word, word, List.getD_eq_getElem?_getD, List.getElem?_modify,
    List.getD_eq_getElem?_getD, word, List.getD_eq_getElem?_getD]
  rcases eq_or_ne index other with rfl | ne
  · rcases Nat.lt_or_ge index set.capacity with inside | outside
    · have inside' : index < set.value.length := inside
      simp [inside, inside']
    · have outside' : set.value.length ≤ index := outside
      have outside'' : ¬index < set.capacity := Nat.not_lt.mpr outside
      simp [outside', outside'']
  · rw [if_neg fun same => ne same.1.symm]
    simp [ne]

theorem getLsbD_oneBit (index position : ℕ) :
    (oneBit index).getLsbD position = decide (position = index % 64) := by
  rw [oneBit, BitVec.getLsbD_shiftLeft]
  have below : index % 64 < 64 := Nat.mod_lt _ (by decide)
  rcases lt_trichotomy position (index % 64) with less | rfl | more
  · simp [less, less.ne]
  · simp [below]
  · have nonzero : position - index % 64 ≠ 0 := by omega
    simp [more.ne', BitVec.getLsbD_one, nonzero]

/-- Two numbers are equal when they have the same word and the same bit of it. -/
theorem eq_iff_div_mod (index other : ℕ) :
    other = index ↔ other / 64 = index / 64 ∧ other % 64 = index % 64 := by
  constructor
  · rintro rfl
    exact ⟨rfl, rfl⟩
  · intro ⟨sameWord, sameBit⟩
    rw [← Nat.div_add_mod other 64, sameWord, sameBit, Nat.div_add_mod]

theorem bit_modify_or {index : ℕ} (inside : index / 64 < set.capacity) (other : ℕ) :
    ({ value := set.value.modify (index / 64) (· ||| oneBit index) } : BitSet).bit other = true ↔
      other = index ∨ set.bit other = true := by
  rw [bit, word_modify, bit, eq_iff_div_mod index other]
  rcases eq_or_ne (other / 64) (index / 64) with same | differ
  · rw [if_pos ⟨same, inside⟩, BitVec.getLsbD_or, getLsbD_oneBit, same, Bool.or_eq_true,
      decide_eq_true_iff, or_comm]
    simp only [true_and]
  · rw [if_neg fun both => differ both.1]
    simp [differ]

theorem bit_modify_and_not {index : ℕ} (inside : index / 64 < set.capacity) (other : ℕ) :
    ({ value := set.value.modify (index / 64) (· &&& ~~~oneBit index) } : BitSet).bit other = true ↔
      other ≠ index ∧ set.bit other = true := by
  have below : other % 64 < 64 := Nat.mod_lt _ (by decide)
  rw [bit, word_modify, bit, Ne, eq_iff_div_mod index other]
  rcases eq_or_ne (other / 64) (index / 64) with same | differ
  · rw [if_pos ⟨same, inside⟩, BitVec.getLsbD_and, BitVec.getLsbD_not, getLsbD_oneBit, same,
      Bool.and_eq_true, and_comm]
    simp only [below, decide_true, Bool.true_and, Bool.not_eq_true', decide_eq_false_iff_not,
      true_and]
  · rw [if_neg fun both => differ both.1]
    simp only [differ, false_and, not_false_eq_true, true_and]

end BitSet

open BitSet

variable {numbers : Finset ℕ}

/-- A set whose words have the right bits has the right members. -/
theorem members_eq_of_bit {set : BitSet} (same : ∀ index, set.bit index = true ↔ index ∈ numbers) :
    set.members = numbers := by
  apply Finset.ext
  intro index
  rw [mem_members]
  exact same index

theorem members_bitSetClear (set : BitSet) : (bitSetClear set).members = ∅ := by
  apply Finset.eq_empty_of_forall_notMem
  intro index
  rw [mem_members, bit, bitSetClear, word_mk_replicate_zero]
  simp

variable {index : ℕ}

theorem members_bitSetInsert (set : BitSet) (fits : index + 64 < 2 ^ 64) :
    (bitSetInsert set index).members = insert index set.members := by
  apply Finset.ext
  intro other
  rw [mem_members, Finset.mem_insert, mem_members]
  unfold bitSetInsert
  split
  next full =>
    have room := le_capacity_growWords set ((index + 64) % 2 ^ 64 / 64)
    rw [bitSetInsertGrow, bit_modify_or]
    · rw [makeRoomFor, bit, word_growWords, ← bit]
    · rw [makeRoomFor]
      omega
  next inside =>
    exact bit_modify_or (Nat.not_le.mp inside) other

theorem members_bitSetRemove (set : BitSet) (index : ℕ) :
    (bitSetRemove set index).members = set.members.erase index := by
  apply Finset.ext
  intro other
  rw [mem_members, Finset.mem_erase, mem_members]
  unfold bitSetRemove
  split
  next outside =>
    rw [iff_and_self]
    rintro isSet rfl
    have := lt_capacity_of_bit isSet
    omega
  next inside =>
    exact bit_modify_and_not (Nat.not_le.mp inside) other

theorem bitSetContains_eq (set : BitSet) (index : ℕ) :
    bitSetContains set index = decide (index ∈ set.members) := by
  rw [Bool.eq_iff_iff, decide_eq_true_iff, mem_members]
  unfold bitSetContains
  split
  next outside =>
    rw [bit, word_of_capacity_le outside]
    simp
  next inside =>
    rw [bne_iff_ne, bit]
    constructor
    · intro nonzero
      by_contra clear
      apply nonzero
      apply BitVec.eq_of_getLsbD_eq
      intro position _
      rw [BitVec.getLsbD_and, getLsbD_oneBit]
      rcases eq_or_ne position (index % 64) with rfl | ne
      · rw [Bool.not_eq_true] at clear
        simp [clear]
      · simp [ne]
    · intro isSet zero
      have none : ((set.word (index / 64)) &&& oneBit index).getLsbD (index % 64) = false := by
        rw [zero]
        simp
      rw [BitVec.getLsbD_and, isSet, getLsbD_oneBit] at none
      simp at none

theorem word_clearWordsFrom (set : BitSet) (index other : ℕ) :
    (clearWordsFrom set index).word other = if other < index then set.word other else 0 := by
  unfold clearWordsFrom
  split
  next inside =>
    rw [word, List.getD_eq_getElem?_getD]
    split
    next before =>
      have beforeEnd : other < set.value.length := Nat.lt_trans before inside
      rw [List.getElem?_append_left (by simp; exact ⟨before, beforeEnd⟩), List.getElem?_take_of_lt before,
        ← List.getD_eq_getElem?_getD, ← word]
    next after =>
      have length : (set.value.take index).length = index := by
        exact List.length_take_of_le (Nat.le_of_lt inside)
      rw [List.getElem?_append_right (by omega), List.getElem?_replicate]
      split <;> rfl
  next outside =>
    split
    next => rfl
    next after => exact word_of_capacity_le (by omega)

/-- The lowest bits. -/
theorem getLsbD_lowMask {count position : ℕ} (fits : count < 64) :
    ((1 : Word) <<< count - 1).getLsbD position = decide (position < count) := by
  have power : 2 ^ count < 2 ^ 64 := Nat.pow_lt_pow_right (by decide) fits
  have positive : 0 < 2 ^ count := Nat.two_pow_pos count
  have shifted : ((1 : Word) <<< count).toNat = 2 ^ count := by
    rw [BitVec.toNat_shiftLeft, show (1 : Word).toNat = 1 from rfl, Nat.shiftLeft_eq, Nat.one_mul]
    exact Nat.mod_eq_of_lt power
  have value : ((1 : Word) <<< count - 1).toNat = 2 ^ count - 1 := by
    rw [BitVec.toNat_sub_of_le, shifted]
    · rfl
    · rw [BitVec.le_def, shifted]
      exact positive
  rw [BitVec.getLsbD, value, Nat.testBit_two_pow_sub_one]

theorem word_fillWords {set : BitSet} {words : ℕ} (inside : index < words) :
    (fillWords set words).word index = BitVec.allOnes 64 := by
  rw [fillWords, word, List.getD_append _ _ _ _ (by simpa using inside),
    List.getD_eq_getElem?_getD, List.getElem?_replicate, if_pos inside]
  rfl

theorem le_capacity_fillWords (set : BitSet) (words : ℕ) :
    words ≤ (fillWords set words).capacity := by
  rw [fillWords, capacity, List.length_append, List.length_replicate]
  omega

variable {bitCount : ℕ}

theorem word_bitSetFill (set : BitSet) (fits : bitCount + 63 < 2 ^ 64) (index : ℕ) :
    (bitSetFill set bitCount).word index = if index < bitCount / 64 then BitVec.allOnes 64
      else if index = bitCount / 64 ∧ bitCount % 64 ≠ 0 then (1 : Word) <<< (bitCount % 64) - 1
      else 0 := by
  unfold bitSetFill
  simp only [word_clearWordsFrom, Nat.mod_eq_of_lt fits]
  rcases Nat.lt_or_ge index ((bitCount + 63) / 64) with inside | outside
  · have nonzero : (bitCount + 63) / 64 ≠ 0 := by omega
    rw [if_pos inside, if_neg nonzero]
    split
    next whole =>
      rw [word_fillWords inside, if_pos (by omega)]
    next part =>
      rw [word_set, word_fillWords inside]
      rcases Nat.lt_or_ge index (bitCount / 64) with before | last
      · rw [if_pos before, if_neg (by omega)]
      · have same : index = bitCount / 64 := by omega
        have there := le_capacity_fillWords (makeRoom set ((bitCount + 63) / 64))
          ((bitCount + 63) / 64)
        rw [if_neg (Nat.not_lt.mpr last), if_pos ⟨by omega, by omega⟩, if_pos ⟨same, part⟩]
  · rw [if_neg (Nat.not_lt.mpr outside), if_neg (by omega), if_neg (by omega)]

theorem members_bitSetFill (set : BitSet) (fits : bitCount + 63 < 2 ^ 64) :
    (bitSetFill set bitCount).members = Finset.range bitCount := by
  apply members_eq_of_bit
  intro index
  rw [bit, word_bitSetFill set fits, Finset.mem_range]
  split
  next before =>
    rw [BitVec.getLsbD_allOnes, decide_eq_true_iff]
    omega
  split
  next after last =>
    rw [getLsbD_lowMask (Nat.mod_lt _ (by decide)), decide_eq_true_iff]
    omega
  next after notLast =>
    simp only [BitVec.ofNat_eq_ofNat, BitVec.getLsbD_zero, Bool.false_eq_true, false_iff]
    omega

/-! ## Several sets -/

/-- The members of each set. -/
def membersOf (sets : BitSets) : ℕ → Finset ℕ :=
  fun set => (sets set).members

theorem membersOf_update (sets : BitSets) (set : ℕ) (value : BitSet) :
    membersOf (Function.update sets set value) =
      Function.update (membersOf sets) set value.members := by
  funext other
  rw [membersOf, Function.update_apply, Function.update_apply]
  split <;> rfl

/-- The sets after the loop of a binary operation. -/
theorem foldl_storeWord (combine : Word → Word → Word) (set1 set2 result : ℕ) {sets : BitSets} :
    ∀ {count : ℕ}, count ≤ (sets result).capacity →
      let after := (List.range count).foldl
        (fun sets i => storeWord sets result i (combine ((sets set1).word i) ((sets set2).word i)))
        sets
      (∀ other, other ≠ result → after other = sets other) ∧
        (after result).capacity = (sets result).capacity ∧
        ∀ index, (after result).word index =
          if index < count then combine ((sets set1).word index) ((sets set2).word index)
          else (sets result).word index
  | 0, _ => ⟨fun _ _ => rfl, rfl, fun _ => rfl⟩
  | count + 1, room => by
    have ⟨others, kept, words⟩ :=
      @foldl_storeWord combine set1 set2 result sets count (Nat.le_of_succ_le room)
    rw [List.range_succ, List.foldl_append, List.foldl_cons, List.foldl_nil]
    generalize List.foldl _ sets (List.range count) = before at others kept words
    have unread : ∀ set, (before set).word count = (sets set).word count := by
      intro set
      rcases eq_or_ne set result with rfl | ne
      · rw [words, if_neg (Nat.lt_irrefl _)]
      · rw [others set ne]
    refine ⟨?_, ?_, ?_⟩
    · intro other ne
      rw [storeWord, Function.update_of_ne ne, others other ne]
    · rw [storeWord, Function.update_self, capacity, List.length_set, ← kept, capacity]
    · intro index
      rw [storeWord, Function.update_self, word_set, unread, unread]
      rcases lt_trichotomy index count with before' | rfl | after
      · rw [if_neg (by omega), words, if_pos before', if_pos (by omega)]
      · rw [if_pos ⟨rfl, by omega⟩, if_pos (Nat.lt_succ_self _)]
      · rw [if_neg (by omega), words, if_neg (by omega), if_neg (by omega)]

theorem word_update_makeRoom (sets : BitSets) (result words set index : ℕ) :
    (Function.update sets result (makeRoom (sets result) words) set).word index =
      (sets set).word index := by
  rcases eq_or_ne set result with rfl | ne
  · rw [Function.update_self, word_makeRoom]
  · rw [Function.update_of_ne ne]

/-- The members after an operation that writes one set. -/
theorem membersOf_eq_update {sets after : BitSets} {result : ℕ}
    (others : ∀ other, other ≠ result → after other = sets other)
    (written : (after result).members = numbers) :
    membersOf after = Function.update (membersOf sets) result numbers := by
  funext other
  rcases eq_or_ne other result with rfl | ne
  · rw [Function.update_self, membersOf, written]
  · rw [Function.update_of_ne ne, membersOf, membersOf, others other ne]

theorem membersOf_bitSetIntersection (sets : BitSets) (set1 set2 result : ℕ) :
    membersOf (bitSetIntersection sets set1 set2 result) =
      Function.update (membersOf sets) result
        (membersOf sets set1 ∩ membersOf sets set2) := by
  have shorter : ∀ index, min (sets set1).capacity (sets set2).capacity ≤ index →
      (sets set1).word index &&& (sets set2).word index = 0 := by
    intro index outside
    rcases Nat.le_total (sets set1).capacity (sets set2).capacity with less | less
    · rw [word_of_capacity_le (by omega)]
      exact BitVec.zero_and
    · rw [@word_of_capacity_le (sets set2) _ (by omega)]
      exact BitVec.and_zero
  have least : (if (sets set2).capacity < (sets set1).capacity then (sets set2).capacity
      else (sets set1).capacity) = min (sets set1).capacity (sets set2).capacity := by
    split <;> omega
  unfold bitSetIntersection
  simp only [least]
  generalize min (sets set1).capacity (sets set2).capacity = least at shorter
  split
  next zero =>
    apply membersOf_eq_update
    · intro other ne
      rw [Function.update_of_ne ne]
    · rw [Function.update_self, members_bitSetClear]
      symm
      apply Finset.eq_empty_of_forall_notMem
      intro index
      rw [Finset.mem_inter, membersOf, membersOf, mem_members, mem_members, ← Bool.and_eq_true,
        bit, bit, ← BitVec.getLsbD_and, shorter _ (by omega)]
      simp
  next nonzero =>
    have room : least ≤
        (Function.update sets result (makeRoom (sets result) least) result).capacity := by
      rw [Function.update_self]
      exact le_capacity_makeRoom _ _
    obtain ⟨others, _, words⟩ := foldl_storeWord (· &&& ·) set1 set2 result room
    apply membersOf_eq_update
    · intro other ne
      rw [Function.update_of_ne ne, others other ne, Function.update_of_ne ne]
    · rw [Function.update_self]
      apply members_eq_of_bit
      intro index
      rw [Finset.mem_inter, membersOf, membersOf, mem_members, mem_members, ← Bool.and_eq_true,
        bit, bit, bit, ← BitVec.getLsbD_and, word_clearWordsFrom, words, word_update_makeRoom,
        word_update_makeRoom]
      split
      next => rfl
      next outside => rw [shorter _ (Nat.not_lt.mp outside)]

variable {left right : BitSet}

/-- A union of words that is read from two sets is their union. -/
theorem members_eq_union {set : BitSet}
    (words : ∀ index, set.word index = left.word index ||| right.word index) :
    set.members = left.members ∪ right.members := by
  apply members_eq_of_bit
  intro index
  rw [Finset.mem_union, mem_members, mem_members, ← Bool.or_eq_true, bit, words, bit, bit,
    BitVec.getLsbD_or]

theorem word_or_eq_zero (outsideLeft : left.capacity ≤ index)
    (outsideRight : right.capacity ≤ index) : left.word index ||| right.word index = 0 := by
  rw [word_of_capacity_le outsideLeft, word_of_capacity_le outsideRight]
  exact BitVec.or_zero

theorem membersOf_bitSetUnion (sets : BitSets) (set1 set2 result : ℕ) :
    membersOf (bitSetUnion sets set1 set2 result) =
      Function.update (membersOf sets) result
        (membersOf sets set1 ∪ membersOf sets set2) := by
  have read : ∀ (sets : BitSets) (set index : ℕ),
      (if index < (sets set).capacity then (sets set).word index else 0) =
        (sets set).word index := by
    intro sets set index
    split
    next => rfl
    next outside => exact (word_of_capacity_le (Nat.not_lt.mp outside)).symm
  have greatest : (if (sets set1).capacity < (sets set2).capacity then (sets set2).capacity
      else (sets set1).capacity) = max (sets set1).capacity (sets set2).capacity := by
    split <;> omega
  unfold bitSetUnion
  simp only [greatest, read]
  have longer : ∀ index, max (sets set1).capacity (sets set2).capacity ≤ index →
      (sets set1).word index ||| (sets set2).word index = 0 :=
    fun index outside => word_or_eq_zero (by omega) (by omega)
  generalize max (sets set1).capacity (sets set2).capacity = greatest at longer
  have room : greatest ≤
      (Function.update sets result (makeRoom (sets result) greatest) result).capacity := by
    rw [Function.update_self]
    exact le_capacity_makeRoom _ _
  have ⟨others, _, words⟩ := foldl_storeWord (· ||| ·) set1 set2 result room
  apply membersOf_eq_update
  · intro other ne
    rw [Function.update_of_ne ne, others other ne, Function.update_of_ne ne]
  · rw [Function.update_self]
    apply members_eq_union
    intro index
    rw [word_clearWordsFrom, words, word_update_makeRoom, word_update_makeRoom]
    split
    next => rfl
    next outside => rw [longer _ (Nat.not_lt.mp outside)]

theorem membersOf_bitSetUnionInPlace (sets : BitSets) (dest src : ℕ) :
    membersOf (bitSetUnionInPlace sets dest src) =
      Function.update (membersOf sets) dest (membersOf sets dest ∪ membersOf sets src) := by
  have greatest : (if (sets dest).capacity < (sets src).capacity then (sets src).capacity
      else (sets dest).capacity) = max (sets dest).capacity (sets src).capacity := by
    split <;> omega
  unfold bitSetUnionInPlace
  simp only [greatest]
  have enough : (sets src).capacity ≤ max (sets dest).capacity (sets src).capacity :=
    Nat.le_max_right _ _
  generalize max (sets dest).capacity (sets src).capacity = greatest at enough
  have room : (Function.update sets dest (makeRoom (sets dest) greatest) src).capacity ≤
      (Function.update sets dest (makeRoom (sets dest) greatest) dest).capacity := by
    rcases eq_or_ne src dest with rfl | ne
    · exact Nat.le_refl _
    · rw [Function.update_of_ne ne, Function.update_self]
      exact Nat.le_trans enough (le_capacity_makeRoom _ _)
  have ⟨others, _, words⟩ := foldl_storeWord (· ||| ·) dest src dest room
  apply membersOf_eq_update
  · intro other ne
    rw [others other ne, Function.update_of_ne ne]
  · apply members_eq_union
    intro index
    rw [words, word_update_makeRoom, word_update_makeRoom]
    split
    next => rfl
    next outside =>
      have zero : (sets src).word index = 0 := by
        rw [← word_update_makeRoom sets dest greatest]
        exact word_of_capacity_le (Nat.not_lt.mp outside)
      rw [zero]
      exact BitVec.or_zero.symm

theorem makeRoom_capacity (set : BitSet) : makeRoom set set.capacity = set := by
  unfold makeRoom
  split
  next => rfl
  next nonzero =>
    have nonempty : set.value.isEmpty = false := by
      cases isEmpty : set.value with
      | nil =>
        rw [capacity, isEmpty] at nonzero
        exact absurd rfl nonzero
      | cons => rfl
    rw [growWords, nonempty, if_neg Bool.false_ne_true, if_neg (Nat.lt_irrefl _)]

theorem membersOf_bitSetCopy (sets : BitSets) (copy source : ℕ) :
    membersOf (bitSetCopy sets copy source) =
      Function.update (membersOf sets) copy (membersOf sets source) := by
  unfold bitSetCopy
  have room : Function.update sets copy (makeRoom (sets copy) (sets source).capacity) source =
      sets source := by
    rcases eq_or_ne source copy with rfl | ne
    · rw [Function.update_self, makeRoom_capacity]
    · exact Function.update_of_ne ne _ _
  simp only [room, Function.update_self]
  generalize rest : (makeRoom (sets copy) (sets source).capacity).value.drop
    (sets source).capacity = tail
  have copied : (Function.update (Function.update sets copy
      (makeRoom (sets copy) (sets source).capacity)) copy
        { value := (sets source).value ++ tail } source).capacity = (sets source).capacity := by
    rcases eq_or_ne source copy with rfl | ne
    · rw [makeRoom_capacity, capacity, List.drop_length] at rest
      rw [Function.update_self, ← rest, List.append_nil]
    · rw [Function.update_of_ne ne, room]
  rw [copied]
  apply membersOf_eq_update
  · intro other ne
    rw [Function.update_of_ne ne, Function.update_of_ne ne, Function.update_of_ne ne]
  · rw [Function.update_self]
    apply ext_members
    intro index
    rw [bit, bit, word_clearWordsFrom]
    split
    next inside => rw [word, List.getD_append _ _ _ _ inside, ← word]
    next outside => rw [word_of_capacity_le (Nat.not_lt.mp outside)]

theorem eq_of_word (same : left.members = right.members) (index : ℕ) :
    left.word index = right.word index := by
  apply BitVec.eq_of_getLsbD_eq
  intro position below
  have agree : left.bit (64 * index + position) = right.bit (64 * index + position) := by
    rw [Bool.eq_iff_iff, ← mem_members, same, mem_members]
  have quotient : (64 * index + position) / 64 = index := by omega
  have remainder : (64 * index + position) % 64 = position := by omega
  rwa [bit, bit, quotient, remainder] at agree

theorem members_eq_iff_word (left right : BitSet) :
    left.members = right.members ↔ ∀ index, left.word index = right.word index := by
  constructor
  · exact eq_of_word
  · intro same
    apply ext_members
    intro index
    rw [bit, bit, same]

/-- The comparison of a shorter array with a longer one. -/
theorem prefix_and_zeros_iff {shorter longer : BitSet}
    (ordered : shorter.capacity ≤ longer.capacity) :
    (longer.value.take shorter.capacity = shorter.value ∧
        (longer.value.drop shorter.capacity).all (· == 0) = true) ↔
      ∀ index, shorter.word index = longer.word index := by
  constructor
  · intro ⟨front, zeros⟩ index
    rcases Nat.lt_or_ge index shorter.capacity with inside | outside
    · rw [word, word, List.getD_eq_getElem?_getD, List.getD_eq_getElem?_getD, ← front,
        List.getElem?_take_of_lt inside]
    · rw [word_of_capacity_le outside, word, List.getD_eq_getElem?_getD]
      cases found : longer.value[index]? with
      | none => rfl
      | some value =>
        have dropped : (longer.value.drop shorter.capacity)[index - shorter.capacity]? =
            some value := by
          rw [List.getElem?_drop, Nat.add_sub_cancel' outside, found]
        have zero := List.all_eq_true.mp zeros _ (List.mem_of_getElem? dropped)
        exact (beq_iff_eq.mp zero).symm
  · intro same
    constructor
    · apply List.ext_getElem?
      intro index
      rcases Nat.lt_or_ge index shorter.capacity with inside | outside
      · have insideLonger : index < longer.value.length := Nat.lt_of_lt_of_le inside ordered
        have insideShorter : index < shorter.value.length := inside
        have agree := same index
        rw [word, word, List.getD_eq_getElem _ _ insideShorter,
          List.getD_eq_getElem _ _ insideLonger] at agree
        rw [List.getElem?_take_of_lt inside, List.getElem?_eq_getElem insideLonger,
          List.getElem?_eq_getElem insideShorter, agree]
      · have outsideTake : (longer.value.take shorter.capacity).length ≤ index :=
          Nat.le_trans (List.length_take_le _ _) outside
        rw [List.getElem?_eq_none outsideTake, List.getElem?_eq_none outside]
    · rw [List.all_eq_true]
      intro value inside
      obtain ⟨offset, found⟩ := List.mem_iff_getElem?.mp inside
      rw [List.getElem?_drop] at found
      have agree := same (shorter.capacity + offset)
      rw [word_of_capacity_le (Nat.le_add_right _ _), word, List.getD_eq_getElem?_getD, found]
        at agree
      exact beq_iff_eq.mpr agree.symm

theorem bitSetEqual_eq (set1 set2 : BitSet) :
    bitSetEqual set1 set2 = decide (set1.members = set2.members) := by
  have whole : ∀ set : BitSet, set.value.take set.capacity = set.value :=
    fun set => List.take_length
  rw [Bool.eq_iff_iff, decide_eq_true_iff, members_eq_iff_word]
  unfold bitSetEqual
  rcases Nat.lt_or_ge set2.capacity set1.capacity with less | less
  · simp only [if_pos less, whole]
    rw [forall_congr' fun index => eq_comm, ← prefix_and_zeros_iff (Nat.le_of_lt less)]
    split
    next differ => simp [bne_iff_ne.mp differ]
    next same => simp [bne_eq_false_iff_eq.mp (Bool.not_eq_true _ ▸ same)]
  · simp only [if_neg (Nat.not_lt.mpr less), whole]
    rw [← prefix_and_zeros_iff less]
    split
    next differ => simp [(bne_iff_ne.mp differ).symm]
    next same => simp [bne_eq_false_iff_eq.mp (Bool.not_eq_true _ ▸ same)]

end DaveCC.Container
