import DaveCC.Arith.BitCounting
import DaveCC.Loop.While

/-!
# Bit sets

The bit sets of `bitset.c`. A set is an array of words, and `NULL` is the array of no
words: the capacity is its length. Several sets live side by side, so that a set that is
both an operand and the result of an operation is read while it is written. A size is a
natural number; where the source computes with one that can exceed `size_t` the remainder
is explicit.
-/

namespace DaveCC.Container

abbrev BitSet.Word := BitVec 64

structure BitSet where
  value : List BitSet.Word := []
  deriving DecidableEq, Repr

/-- The sets by the address of their structure. -/
abbrev BitSets := ℕ → BitSet

/-- `SIZE_MAX`, which is also `(size_t)-1`. -/
def sizeMax : ℕ := 2 ^ 64 - 1

namespace BitSet

def capacity (set : BitSet) : ℕ :=
  set.value.length

/-- A word of a set. There are only zeros after the last one. -/
def word (set : BitSet) (index : ℕ) : Word :=
  set.value.getD index 0

/-- Whether a number is in the set. -/
def bit (set : BitSet) (index : ℕ) : Bool :=
  (set.word (index / 64)).getLsbD (index % 64)

/-- The numbers in the set. -/
def members (set : BitSet) : Finset ℕ :=
  (Finset.range (64 * set.capacity)).filter fun index => set.bit index

end BitSet

open BitSet (Word)

/-- The loop of `GrowthCapacity`. -/
def doubleCapacity (required capacity : ℕ) (positive : 0 < capacity) : ℕ :=
  if capacity < required then
    if sizeMax / 2 < capacity then required
    else doubleCapacity required (capacity * 2) (by omega)
  else capacity
termination_by required - capacity

def growthCapacity (current required : ℕ) : ℕ :=
  if empty : current = 0 then doubleCapacity required 1 Nat.one_pos
  else doubleCapacity required current (Nat.pos_of_ne_zero empty)

/-- Allocate the words of an empty set, or more words with zeros in them. -/
def growWords (set : BitSet) (wordsRequired : ℕ) : BitSet :=
  let newCapacity := growthCapacity set.capacity wordsRequired
  if set.value.isEmpty then { value := List.replicate newCapacity 0 }
  else if set.capacity < wordsRequired then
    { value := set.value ++ List.replicate (newCapacity - set.capacity) 0 }
  else set

def makeRoomFor (set : BitSet) (index : ℕ) : BitSet :=
  growWords set ((index + 64) % 2 ^ 64 / 64)

def makeRoom (set : BitSet) (words : ℕ) : BitSet :=
  if words = 0 then set else growWords set words

def bitSetClear (set : BitSet) : BitSet :=
  { value := List.replicate set.capacity 0 }

/-- Zero the words from an index on. -/
def clearWordsFrom (set : BitSet) (index : ℕ) : BitSet :=
  if index < set.capacity then
    { value := set.value.take index ++ List.replicate (set.capacity - index) 0 }
  else set

/-- Fill the first words with ones. -/
def fillWords (set : BitSet) (words : ℕ) : BitSet :=
  { value := List.replicate words (BitVec.allOnes 64) ++ set.value.drop words }

def bitSetFill (set : BitSet) (bitCount : ℕ) : BitSet :=
  let words := (bitCount + 63) % 2 ^ 64 / 64
  let filled :=
    if words = 0 then set
    else
      let set := fillWords (makeRoom set words) words
      let finalWordBits := bitCount % 64
      if finalWordBits = 0 then set
      else { value := set.value.set (words - 1) ((1 : Word) <<< finalWordBits - 1) }
  clearWordsFrom filled words

/-- The word with one bit set. -/
def oneBit (index : ℕ) : Word :=
  (1 : Word) <<< (index % 64)

def bitSetInsertGrow (set : BitSet) (index : ℕ) : BitSet :=
  { value := (makeRoomFor set index).value.modify (index / 64) (· ||| oneBit index) }

def bitSetInsert (set : BitSet) (index : ℕ) : BitSet :=
  if set.capacity ≤ index / 64 then bitSetInsertGrow set index
  else { value := set.value.modify (index / 64) (· ||| oneBit index) }

def bitSetContains (set : BitSet) (index : ℕ) : Bool :=
  if set.capacity ≤ index / 64 then false
  else set.word (index / 64) &&& oneBit index != 0

def bitSetRemove (set : BitSet) (index : ℕ) : BitSet :=
  if set.capacity ≤ index / 64 then set
  else { value := set.value.modify (index / 64) (· &&& ~~~oneBit index) }

def findFirstSet64 (value : Word) : ℕ :=
  if value = 0 then 0 else Arith.trailingZeros value + 1

/-- The loop of `BitSetFindFirstSet` and `BitSetFindFirstClear`, which look at each word
in their own way. -/
def findFirst (view : Word → Word) : List Word → ℕ → ℕ
  | [], _ => sizeMax
  | value :: rest, word =>
    let index := findFirstSet64 (view value)
    if index = 0 then findFirst view rest (word + 1) else word * 64 + index - 1

def bitSetFindFirstSet (set : BitSet) : ℕ :=
  findFirst id set.value 0

def bitSetFindFirstClear (set : BitSet) : ℕ :=
  findFirst (~~~·) set.value 0

def bitSetCount (set : BitSet) : ℕ :=
  set.value.foldl (fun count value => count + Arith.populationCount value) 0

def bitSetEqual (set1 set2 : BitSet) : Bool :=
  let (min, larger) :=
    if set2.capacity < set1.capacity then (set2.capacity, set1) else (set1.capacity, set2)
  if set1.value.take min != set2.value.take min then false
  else (larger.value.drop min).all (· == 0)

/-! ## Several sets -/

def storeWord (sets : BitSets) (set index : ℕ) (value : Word) : BitSets :=
  Function.update sets set { value := (sets set).value.set index value }

def bitSetIntersection (sets : BitSets) (set1 set2 result : ℕ) : BitSets :=
  let min :=
    if (sets set2).capacity < (sets set1).capacity then (sets set2).capacity
    else (sets set1).capacity
  if min = 0 then Function.update sets result (bitSetClear (sets result))
  else
    let sets := Function.update sets result (makeRoom (sets result) min)
    let sets := (List.range min).foldl
      (fun sets i => storeWord sets result i ((sets set1).word i &&& (sets set2).word i)) sets
    Function.update sets result (clearWordsFrom (sets result) min)

def bitSetUnion (sets : BitSets) (set1 set2 result : ℕ) : BitSets :=
  let max :=
    if (sets set1).capacity < (sets set2).capacity then (sets set2).capacity
    else (sets set1).capacity
  let sets := Function.update sets result (makeRoom (sets result) max)
  let sets := (List.range max).foldl
    (fun sets i =>
      let left := if i < (sets set1).capacity then (sets set1).word i else 0
      let right := if i < (sets set2).capacity then (sets set2).word i else 0
      storeWord sets result i (left ||| right)) sets
  Function.update sets result (clearWordsFrom (sets result) max)

def bitSetUnionInPlace (sets : BitSets) (dest src : ℕ) : BitSets :=
  let max :=
    if (sets dest).capacity < (sets src).capacity then (sets src).capacity
    else (sets dest).capacity
  let sets := Function.update sets dest (makeRoom (sets dest) max)
  (List.range (sets src).capacity).foldl
    (fun sets i => storeWord sets dest i ((sets dest).word i ||| (sets src).word i)) sets

def bitSetCopy (sets : BitSets) (copy source : ℕ) : BitSets :=
  let sets := Function.update sets copy (makeRoom (sets copy) (sets source).capacity)
  let sets := Function.update sets copy
    { value := (sets source).value ++ (sets copy).value.drop (sets source).capacity }
  Function.update sets copy (clearWordsFrom (sets copy) (sets source).capacity)

/-- `BitSetIterator`, apart from its set. -/
structure BitSetIterator where
  wordOffset : ℕ
  bitOffset : ℕ
  remaining : Word
  deriving DecidableEq, Repr

def bitSetIteratorDone (set : BitSet) (iterator : BitSetIterator) : Bool :=
  set.value.isEmpty || decide (set.capacity ≤ iterator.wordOffset)

/-- The first nonzero word at an index or after it, or the end. -/
def skipZeroWords (set : BitSet) (index : ℕ) : ℕ :=
  if index < set.capacity ∧ set.word index = 0 then skipZeroWords set (index + 1) else index
termination_by set.capacity - index

/-- Go to the first bit of a word, or to the end. -/
def enterWord (set : BitSet) (index : ℕ) : BitSetIterator :=
  if index < set.capacity then
    { wordOffset := index
      bitOffset := Arith.trailingZeros (set.word index)
      remaining := set.word index }
  else { wordOffset := index, bitOffset := 0, remaining := 0 }

def bitSetIteratorStart (set : BitSet) : BitSetIterator :=
  enterWord set (skipZeroWords set 0)

def bitSetIteratorNext (set : BitSet) (iterator : BitSetIterator) : BitSetIterator :=
  if bitSetIteratorDone set iterator then iterator
  else
    let remaining := iterator.remaining &&& (iterator.remaining - 1)
    if remaining ≠ 0 then
      { iterator with remaining := remaining, bitOffset := Arith.trailingZeros remaining }
    else enterWord set (skipZeroWords set (iterator.wordOffset + 1))

def bitSetIteratorValue (iterator : BitSetIterator) : ℕ :=
  iterator.wordOffset * 64 + iterator.bitOffset

/-- The values that the loop over an iterator sees, when it ends within the fuel. -/
def bitSetVisited (set : BitSet) (fuel : ℕ) : Option (List ℕ) :=
  (Loop.runWhile (fun (iterator, _) => !bitSetIteratorDone set iterator)
    (fun (iterator, visited) =>
      some (bitSetIteratorNext set iterator, visited ++ [bitSetIteratorValue iterator]))
    fuel (bitSetIteratorStart set, [])).map Prod.snd

namespace BitSet

variable {set : BitSet}

theorem word_of_capacity_le {index : ℕ} (outside : set.capacity ≤ index) : set.word index = 0 := by
  rw [word, List.getD_eq_default _ _ outside]

variable {index : ℕ}

theorem lt_capacity_of_bit (isSet : set.bit index = true) : index < 64 * set.capacity := by
  by_contra outside
  rw [bit, word_of_capacity_le (by omega)] at isSet
  simp at isSet

@[simp] theorem mem_members : index ∈ set.members ↔ set.bit index = true := by
  rw [members, Finset.mem_filter, Finset.mem_range, and_iff_right_iff_imp]
  exact lt_capacity_of_bit

theorem ext_members {other : BitSet} (same : ∀ index, set.bit index = other.bit index) :
    set.members = other.members := by
  apply Finset.ext
  intro index
  rw [mem_members, mem_members, same]

end BitSet

end DaveCC.Container
