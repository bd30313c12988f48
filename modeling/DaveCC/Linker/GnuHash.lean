import DaveCC.Arith.LittleEndian
import DaveCC.Linker.DynamicSymbols

/-!
# The GNU hash section

The section that `CreateGNUHashTable` writes: a header, a Bloom filter of two bits a symbol,
the bucket starts, and the chains of hash codes whose lowest bit ends a chain.
-/

namespace DaveCC.Linking

open DaveCC.Arith DaveCC.Container

/-- `DynamicLoaderGNUHashTableHeader`. -/
structure GNUHashTableHeader where
  numBuckets : BitVec 32
  symoffset : BitVec 32
  bloomSize : BitVec 32
  bloomShift : BitVec 32
  deriving DecidableEq, Repr

def nextPowerOf2 (value : BitVec 64) : BitVec 64 :=
  let value := value ||| value >>> 1
  let value := value ||| value >>> 2
  let value := value ||| value >>> 4
  let value := value ||| value >>> 8
  let value := value ||| value >>> 16
  let value := value ||| value >>> 32
  value + 1

/-- `WriteHeader`. -/
def gnuHashTableHeader (wordBits : Nat) (numGnuBuckets : BitVec 32) (numSymbols firstDefined : Nat) :
    GNUHashTableHeader :=
  let numBits := (numSymbols - firstDefined) * 12
  let bloomWords := BitVec.ofNat 64 (numBits + wordBits - 1) / BitVec.ofNat 64 wordBits
  { numBuckets := numGnuBuckets
    symoffset := BitVec.ofNat 32 firstDefined
    bloomSize := if bloomWords = 0 then 1 else (nextPowerOf2 (bloomWords - 1)).truncate 32
    bloomShift := 26 }

def GNUHashTableHeader.bytes (header : GNUHashTableHeader) : List (BitVec 8) :=
  arrayBytes 4
    ([header.numBuckets, header.symoffset, header.bloomSize, header.bloomShift].map BitVec.toNat)

/-- The bits of a hash in a word of the Bloom filter: `DynamicLoaderBloomBits64` for words of
64 bits. -/
def bloomBits (wordBits : Nat) (hash : BitVec 32) : BitVec wordBits :=
  (1 <<< (hash.toNat % wordBits)) ||| (1 <<< ((hash >>> 26).toNat % wordBits))

/-- The word of the Bloom filter that a hash selects. -/
def GNUHashTableHeader.bloomIndex (header : GNUHashTableHeader) (wordBits : Nat)
    (hash : BitVec 32) : Nat :=
  (hash.toNat / wordBits) % header.bloomSize.toNat

/-- `WriteBloomFilter`: the words, which are clear at first. -/
def GNUHashTableHeader.bloomFilter (header : GNUHashTableHeader) (wordBits : Nat)
    (hashes : List (BitVec 32)) : List (BitVec wordBits) :=
  hashes.foldl
    (fun words hash =>
      words.modify (header.bloomIndex wordBits hash) (· ||| bloomBits wordBits hash))
    (List.replicate header.bloomSize.toNat 0)

/-- A store into an array. One before the array does not change it. -/
def storeAt (words : List (BitVec 32)) (index : ℤ) (change : BitVec 32 → BitVec 32) :
    List (BitVec 32) :=
  if 0 ≤ index then words.modify index.toNat change else words

/-- The arrays of `WriteHashTable` with `curr_bucket` and `last_chain`. -/
structure HashChains where
  buckets : List (BitVec 32)
  chains : List (BitVec 32)
  currBucket : BitVec 32
  lastChain : ℤ
  deriving DecidableEq, Repr

/-- The bottom bit of the last chain entry is set. -/
def HashChains.close (table : HashChains) : HashChains :=
  { table with
    chains :=
      if table.lastChain ≠ -1 then storeAt table.chains table.lastChain (· ||| 1)
      else table.chains }

/-- The move to the next bucket in `WriteHashTable`. -/
def HashChains.startBucket (table : HashChains) (bucket : BitVec 32) (index : Nat) :
    HashChains :=
  if bucket ≠ table.currBucket then
    { table.close with
      currBucket := bucket
      buckets := storeAt table.buckets bucket.toInt fun _ => BitVec.ofNat 32 index }
  else table

/-- One symbol of `WriteHashTable`, with its index. -/
def HashChains.add (numGnuBuckets : BitVec 32) (firstDefined : Nat) (table : HashChains)
    (symbol : BitVec 32 × Nat) : HashChains :=
  let started := table.startBucket (symbol.1 % numGnuBuckets) symbol.2
  let lastChain := (BitVec.ofNat 32 (symbol.2 - firstDefined)).toInt
  { started with
    lastChain := lastChain
    chains := storeAt started.chains lastChain fun _ => symbol.1 &&& ~~~1 }

def writeHashTable (numGnuBuckets : BitVec 32) (firstDefined : Nat) (hashes : List (BitVec 32)) :
    HashChains :=
  ((hashes.zipIdx firstDefined).foldl (HashChains.add numGnuBuckets firstDefined)
    { buckets := List.replicate numGnuBuckets.toNat 0
      chains := List.replicate hashes.length 0
      currBucket := -1
      lastChain := -1 }).close

/-- `CreateGNUHashTable`: the contents of the section. -/
def createGNUHashTable (wordBits : Nat) (numGnuBuckets : BitVec 32) (firstDefined : Nat)
    (hashes : List (BitVec 32)) : List (BitVec 8) :=
  let header :=
    gnuHashTableHeader wordBits numGnuBuckets (firstDefined + hashes.length) firstDefined
  let table := writeHashTable numGnuBuckets firstDefined hashes
  header.bytes ++
    (arrayBytes (wordBits / 8) ((header.bloomFilter wordBits hashes).map BitVec.toNat) ++
      (arrayBytes 4 (table.buckets.map BitVec.toNat) ++
        arrayBytes 4 (table.chains.map BitVec.toNat)))

/-- The chain entry of a hash, given the hash that follows it in the table. -/
def chainEntry (numGnuBuckets : BitVec 32) (last : BitVec 32) (hash : BitVec 32)
    (next : Option (BitVec 32)) : BitVec 32 :=
  (hash &&& ~~~1) |||
    match next with
    | some next => if next % numGnuBuckets ≠ hash % numGnuBuckets then 1 else 0
    | none => last

/-- Where a bucket starts: the index of its first symbol, or zero. -/
def bucketStart (numGnuBuckets : BitVec 32) (firstDefined : Nat) (hashes : List (BitVec 32))
    (bucket : Nat) : BitVec 32 :=
  ((hashes.findIdx? fun hash => (hash % numGnuBuckets).toNat == bucket).map fun index =>
    BitVec.ofNat 32 (firstDefined + index)).getD 0

/-- The arrays after the hashes of a part of the table. -/
structure Chained (numGnuBuckets : BitVec 32) (firstDefined total : Nat) (last : BitVec 32)
    (hashes : List (BitVec 32)) (table : HashChains) : Prop where
  buckets_length : table.buckets.length = numGnuBuckets.toNat
  chains_length : table.chains.length = total
  bucket : ∀ bucket, bucket < numGnuBuckets.toNat →
    table.buckets[bucket]? = some (bucketStart numGnuBuckets firstDefined hashes bucket)
  chain : ∀ index (hash : BitVec 32), hashes[index]? = some hash →
    table.chains[index]? = some (chainEntry numGnuBuckets last hash hashes[index + 1]?)
  lastChain : table.lastChain = (hashes.length : ℤ) - 1
  currBucket : table.currBucket = (hashes.getLast?.map (· % numGnuBuckets)).getD (-1)

variable {numGnuBuckets : BitVec 32} {firstDefined total : Nat} {hashes : List (BitVec 32)}
  {hash : BitVec 32} {table : HashChains}

theorem toInt_ofNat_of_lt {index : Nat} (small : index < 2 ^ 31) :
    (BitVec.ofNat 32 index).toInt = index := by
  rw [BitVec.toInt_eq_toNat_of_lt, BitVec.toNat_ofNat, Nat.mod_eq_of_lt]
  · omega
  · rw [BitVec.toNat_ofNat, Nat.mod_eq_of_lt] <;> omega

variable {words : List (BitVec 32)} {change : BitVec 32 → BitVec 32}

theorem storeAt_natCast {index : Nat} : storeAt words index change = words.modify index change := by
  rw [storeAt, if_pos (Int.natCast_nonneg index), Int.toNat_natCast]

/-- The empty arrays. -/
theorem Chained.empty :
    Chained numGnuBuckets firstDefined total 0 []
      { buckets := List.replicate numGnuBuckets.toNat 0
        chains := List.replicate total 0
        currBucket := -1
        lastChain := -1 } where
  buckets_length := List.length_replicate
  chains_length := List.length_replicate
  bucket bucket inside := by
    rw [List.getElem?_replicate, if_pos inside]
    rfl
  chain index hash present := by cases present
  lastChain := rfl
  currBucket := rfl

/-- The bottom bit of a chain entry tells whether the chain ends. -/
theorem chainEntry_and_one {last : BitVec 32} (next : Option (BitVec 32)) :
    chainEntry numGnuBuckets last hash next &&& 1 =
      (match next with
        | some next => if next % numGnuBuckets ≠ hash % numGnuBuckets then 1 else 0
        | none => last) &&& 1 := by
  unfold chainEntry
  rw [BitVec.and_comm, BitVec.and_or_distrib_left, ← BitVec.and_assoc,
    BitVec.and_comm 1 hash, BitVec.and_assoc, BitVec.and_comm 1]
  have noBit : (~~~1 : BitVec 32) &&& 1 = 0#32 := by decide
  rw [BitVec.and_comm 1, noBit, BitVec.and_zero, BitVec.zero_or]

/-- The other bits of a chain entry are those of the hash. -/
theorem chainEntry_or_one_eq (next : Option (BitVec 32)) :
    chainEntry numGnuBuckets 1 hash next ||| 1 = hash ||| 1 := by
  have absorbed : ∀ bit : BitVec 32, bit = 0 ∨ bit = 1 → bit ||| 1 = 1 := by
    rintro bit (rfl | rfl) <;> rfl
  have allBits : (~~~1 : BitVec 32) ||| 1 = BitVec.allOnes 32 := by decide
  unfold chainEntry
  rw [BitVec.or_assoc, absorbed]
  · ext place inside
    have bit := congrArg (·[place]) allBits
    simp only [BitVec.getElem_or, BitVec.getElem_allOnes] at bit
    simp only [BitVec.getElem_or, BitVec.getElem_and]
    revert bit
    cases hash[place] <;> cases (~~~1 : BitVec 32)[place] <;> cases (1 : BitVec 32)[place] <;>
      decide
  · cases next with
    | none => exact .inr rfl
    | some next =>
      simp only
      split
      · exact .inr rfl
      · exact .inl rfl

theorem getElem?_storeAt {index place : Nat} :
    (storeAt words index change)[place]? =
      if index = place then words[place]?.map change else words[place]? := by
  rw [storeAt_natCast, List.getElem?_modify]
  split
  · rfl
  · exact congrFun Option.map_id _

@[simp] theorem length_storeAt {index : ℤ} :
    (storeAt words index change).length = words.length := by
  rw [storeAt]
  split
  · exact List.length_modify _ _ _
  · rfl

theorem chainEntry_or_one (hash : BitVec 32) :
    chainEntry numGnuBuckets 0 hash none ||| 1 = chainEntry numGnuBuckets 1 hash none := by
  rw [chainEntry, chainEntry, BitVec.or_assoc]
  rfl

/-- What the close of the last chain does to an entry. -/
theorem Chained.close_chain (chained : Chained numGnuBuckets firstDefined total 0 hashes table)
    {index : Nat} (present : hashes[index]? = some hash) :
    table.close.chains[index]? =
      some (if index + 1 = hashes.length then chainEntry numGnuBuckets 1 hash none
        else chainEntry numGnuBuckets 0 hash hashes[index + 1]?) := by
  have inside := (List.getElem?_eq_some_iff.mp present).1
  have last : table.lastChain = ((hashes.length - 1 : Nat) : ℤ) := by
    rw [chained.lastChain]
    omega
  have entry := chained.chain index hash present
  rw [HashChains.close, if_pos (by omega), last, getElem?_storeAt]
  by_cases ends : index + 1 = hashes.length
  · have beyond : hashes[index + 1]? = none := List.getElem?_eq_none (by omega)
    rw [if_pos (by omega), if_pos ends, entry, beyond, Option.map_some, chainEntry_or_one]
  · rw [if_neg (by omega), if_neg ends, entry]

/-- Closing the last chain finishes the arrays. -/
theorem Chained.close (chained : Chained numGnuBuckets firstDefined total 0 hashes table) :
    Chained numGnuBuckets firstDefined total 1 hashes table.close where
  buckets_length := chained.buckets_length
  chains_length := by
    rw [HashChains.close]
    split
    · rw [length_storeAt, chained.chains_length]
    · exact chained.chains_length
  bucket := chained.bucket
  chain index hash present := by
    rw [chained.close_chain present]
    split
    · next ends =>
        rw [List.getElem?_eq_none (by omega)]
    · next continues =>
        have inside := (List.getElem?_eq_some_iff.mp present).1
        rw [List.getElem?_eq_getElem (show index + 1 < hashes.length by omega)]
        rfl
  lastChain := chained.lastChain
  currBucket := chained.currBucket

variable {bucket : Nat}

theorem findIdx?_bucket_eq_none
    (absent : ¬ ∃ other ∈ hashes, (other % numGnuBuckets).toNat = bucket) :
    (hashes.findIdx? fun hash => (hash % numGnuBuckets).toNat == bucket) = none := by
  rw [List.findIdx?_eq_none_iff]
  intro other member
  exact beq_false_of_ne fun same => absent ⟨other, member, same⟩

theorem bucketStart_eq_zero (absent : ¬ ∃ other ∈ hashes, (other % numGnuBuckets).toNat = bucket) :
    bucketStart numGnuBuckets firstDefined hashes bucket = 0 := by
  rw [bucketStart, findIdx?_bucket_eq_none absent]
  rfl

/-- The start of a bucket after one more hash. -/
theorem bucketStart_append (bucket : Nat) :
    bucketStart numGnuBuckets firstDefined (hashes ++ [hash]) bucket =
      if ∃ other ∈ hashes, (other % numGnuBuckets).toNat = bucket then
        bucketStart numGnuBuckets firstDefined hashes bucket
      else if (hash % numGnuBuckets).toNat = bucket then
        BitVec.ofNat 32 (firstDefined + hashes.length)
      else 0 := by
  by_cases found : ∃ other ∈ hashes, (other % numGnuBuckets).toNat = bucket
  · obtain ⟨other, member, same⟩ := found
    have isSome : (hashes.findIdx? fun hash => (hash % numGnuBuckets).toNat == bucket).isSome := by
      rw [List.findIdx?_isSome, List.any_eq_true]
      exact ⟨other, member, beq_iff_eq.mpr same⟩
    rw [if_pos ⟨other, member, same⟩, bucketStart, bucketStart, List.findIdx?_append,
      Option.or_of_isSome isSome]
  · rw [if_neg found, bucketStart, List.findIdx?_append, findIdx?_bucket_eq_none found,
      Option.none_or, List.findIdx?_singleton]
    by_cases same : (hash % numGnuBuckets).toNat = bucket
    · rw [if_pos same, if_pos (beq_iff_eq.mpr same), Option.map_some, Option.map_some,
        Option.getD_some, Nat.zero_add]
    · rw [if_neg same, if_neg (by simpa using same)]
      rfl

/-- The hashes are in the order of their buckets. -/
def InBucketOrder (numGnuBuckets : BitVec 32) (hashes : List (BitVec 32)) : Prop :=
  hashes.Pairwise fun first second =>
    (first % numGnuBuckets).toNat ≤ (second % numGnuBuckets).toNat

theorem bucket_lt (positive : 0 < numGnuBuckets.toNat) (hash : BitVec 32) :
    (hash % numGnuBuckets).toNat < numGnuBuckets.toNat := by
  exact Nat.mod_lt _ positive

section Adding

variable (positive : 0 < numGnuBuckets.toNat) (representable : numGnuBuckets.toNat < 2 ^ 31)
include positive representable

/-- In bucket order a bucket is new exactly when no earlier hash is in it. -/
theorem Chained.startsBucket_iff (chained : Chained numGnuBuckets firstDefined total 0 hashes table)
    (ordered : InBucketOrder numGnuBuckets (hashes ++ [hash])) :
    hash % numGnuBuckets ≠ table.currBucket ↔
      ¬ ∃ other ∈ hashes, (other % numGnuBuckets).toNat = (hash % numGnuBuckets).toNat := by
  have current := chained.currBucket
  cases hashes using List.reverseRecOn with
  | nil =>
    have below := bucket_lt positive hash
    constructor
    · rintro - ⟨other, member, -⟩
      cases member
    · intro _ same
      rw [same, current] at below
      exact absurd below (by simp; omega)
  | append_singleton earlier last _ =>
    have lastCurrent : table.currBucket = last % numGnuBuckets := by
      rw [current, List.getLast?_concat]
      rfl
    rw [lastCurrent]
    constructor
    · rintro different ⟨other, member, same⟩
      apply different
      apply BitVec.eq_of_toNat_eq
      apply le_antisymm
      · rw [← same]
        rcases List.mem_append.mp member with inEarlier | isLast
        · exact (List.pairwise_append.mp (List.pairwise_append.mp ordered).1).2.2 other inEarlier
            last (List.mem_singleton_self last)
        · rw [List.mem_singleton.mp isLast]
      · exact (List.pairwise_append.mp ordered).2.2 last
          (List.mem_append_right _ (List.mem_singleton_self last)) hash
          (List.mem_singleton_self hash)
    · intro absent same
      apply absent
      exact ⟨last, List.mem_append_right _ (List.mem_singleton_self last), by rw [same]⟩

open HashChains

/-- The buckets after the move to the bucket of the next hash. -/
theorem Chained.startBucket_buckets
    (chained : Chained numGnuBuckets firstDefined total 0 hashes table)
    (ordered : InBucketOrder numGnuBuckets (hashes ++ [hash])) {bucket : Nat}
    (inside : bucket < numGnuBuckets.toNat) :
    (table.startBucket (hash % numGnuBuckets) (firstDefined + hashes.length)).buckets[bucket]? =
      some (bucketStart numGnuBuckets firstDefined (hashes ++ [hash]) bucket) := by
  have starts := chained.startsBucket_iff positive representable ordered
  have entry := chained.bucket bucket inside
  have below := bucket_lt positive hash
  rw [bucketStart_append, startBucket]
  by_cases different : hash % numGnuBuckets ≠ table.currBucket
  · rw [if_pos different]
    have absent := starts.mp different
    have asInt : (hash % numGnuBuckets).toInt = ((hash % numGnuBuckets).toNat : ℤ) :=
      BitVec.toInt_eq_toNat_of_lt (by omega)
    rw [asInt, getElem?_storeAt]
    by_cases same : (hash % numGnuBuckets).toNat = bucket
    · subst same
      rw [if_pos rfl, if_neg absent, if_pos rfl, entry]
      rfl
    · rw [if_neg same, if_neg same, entry]
      split
      · rfl
      · next noneThere => rw [bucketStart_eq_zero noneThere]
  · rw [if_neg different, entry]
    have present := not_not.mp (mt starts.mpr different)
    split
    · rfl
    · next noneThere =>
        have elsewhere : ¬ (hash % numGnuBuckets).toNat = bucket := by
          rintro rfl
          exact noneThere present
        rw [if_neg elsewhere, bucketStart_eq_zero noneThere]

omit positive representable in
/-- The chains after the move to the bucket of the next hash. -/
theorem Chained.startBucket_chains
    (chained : Chained numGnuBuckets firstDefined total 0 hashes table) {index : Nat}
    {entry : BitVec 32} (present : hashes[index]? = some entry) :
    (table.startBucket (hash % numGnuBuckets) (firstDefined + hashes.length)).chains[index]? =
      some (chainEntry numGnuBuckets 0 entry (hashes ++ [hash])[index + 1]?) := by
  have inside := (List.getElem?_eq_some_iff.mp present).1
  have current := chained.currBucket
  by_cases ends : index + 1 = hashes.length
  · have isLast : hashes.getLast? = some entry := by
      rw [List.getLast?_eq_getElem?, ← present]
      congr 1
      omega
    rw [isLast, Option.map_some, Option.getD_some] at current
    have follows : (hashes ++ [hash])[index + 1]? = some hash := by
      rw [ends, List.getElem?_append_right le_rfl, Nat.sub_self, List.getElem?_cons_zero]
    rw [follows, startBucket]
    by_cases different : hash % numGnuBuckets ≠ table.currBucket
    · rw [if_pos different]
      simp only
      rw [chained.close_chain present, if_pos ends, chainEntry, chainEntry,
        if_pos (current ▸ different)]
    · rw [if_neg different, chained.chain index entry present,
        List.getElem?_eq_none (show hashes.length ≤ index + 1 by omega), chainEntry, chainEntry,
        if_neg (current ▸ different)]
  · have follows : (hashes ++ [hash])[index + 1]? = hashes[index + 1]? :=
      List.getElem?_append_left (by omega)
    rw [follows, startBucket]
    split
    · simp only
      rw [chained.close_chain present, if_neg ends]
    · exact chained.chain index entry present

/-- One more hash is chained. -/
theorem Chained.add (chained : Chained numGnuBuckets firstDefined total 0 hashes table)
    (ordered : InBucketOrder numGnuBuckets (hashes ++ [hash])) (room : hashes.length < total)
    (few : total ≤ 2 ^ 31) :
    Chained numGnuBuckets firstDefined total 0 (hashes ++ [hash])
      (table.add numGnuBuckets firstDefined (hash, firstDefined + hashes.length)) := by
  have last : (BitVec.ofNat 32 (firstDefined + hashes.length - firstDefined)).toInt =
      (hashes.length : ℤ) := by
    rw [Nat.add_sub_cancel_left, toInt_ofNat_of_lt (by omega)]
  have chainsLength : (table.startBucket (hash % numGnuBuckets)
      (firstDefined + hashes.length)).chains.length = total := by
    rw [startBucket]
    split
    · exact chained.close.chains_length
    · exact chained.chains_length
  constructor
  case buckets_length =>
    rw [HashChains.add, startBucket]
    split
    · exact length_storeAt.trans chained.buckets_length
    · exact chained.buckets_length
  case chains_length => exact length_storeAt.trans chainsLength
  case bucket =>
    intro bucket inside
    exact chained.startBucket_buckets positive representable ordered inside
  case chain =>
    intro index entry present
    rw [HashChains.add]
    simp only
    rw [last, getElem?_storeAt]
    by_cases isNew : hashes.length = index
    · subst isNew
      have same : hash = entry := by
        rw [List.getElem?_append_right le_rfl, Nat.sub_self, List.getElem?_cons_zero] at present
        exact Option.some.inj present
      have beyond : (hashes ++ [hash])[hashes.length + 1]? = none :=
        List.getElem?_eq_none (by simp)
      rw [if_pos rfl, List.getElem?_eq_getElem (by omega), Option.map_some, beyond, ← same,
        chainEntry]
      exact congrArg some (BitVec.or_zero).symm
    · have inside := (List.getElem?_eq_some_iff.mp present).1
      rw [List.length_append, List.length_singleton] at inside
      rw [List.getElem?_append_left (by omega)] at present
      rw [if_neg isNew]
      exact chained.startBucket_chains present
  case lastChain =>
    rw [HashChains.add]
    simp only
    rw [last, List.length_append, List.length_singleton]
    omega
  case currBucket =>
    rw [List.getLast?_concat, Option.map_some, Option.getD_some, HashChains.add, startBucket]
    split
    · rfl
    · next same => exact (not_not.mp same).symm

/-- All the hashes are chained. -/
theorem Chained.foldl {rest : List (BitVec 32)}
    (chained : Chained numGnuBuckets firstDefined total 0 hashes table)
    (ordered : InBucketOrder numGnuBuckets (hashes ++ rest))
    (fits : (hashes ++ rest).length = total) (few : total ≤ 2 ^ 31) :
    Chained numGnuBuckets firstDefined total 0 (hashes ++ rest)
      ((rest.zipIdx (firstDefined + hashes.length)).foldl
        (HashChains.add numGnuBuckets firstDefined) table) := by
  induction rest generalizing hashes table with
  | nil => simpa using chained
  | cons hash rest ih =>
    rw [List.append_cons] at ordered fits ⊢
    have added := chained.add positive representable (List.pairwise_append.mp ordered).1
      (by simp only [List.length_append, List.length_cons] at fits; omega) few
    have folded := ih added ordered fits
    rw [List.length_append, List.length_singleton, ← Nat.add_assoc] at folded
    exact folded

/-- The arrays that are written. -/
theorem chained_writeHashTable (ordered : InBucketOrder numGnuBuckets hashes)
    (few : hashes.length ≤ 2 ^ 31) :
    Chained numGnuBuckets firstDefined hashes.length 1 hashes
      (writeHashTable numGnuBuckets firstDefined hashes) :=
  (Chained.empty.foldl positive representable ordered rfl few).close

end Adding

/-! ## The Bloom filter -/

variable {value : BitVec 64} {exponent : Nat}

theorem nextPowerOf2_step {shift : Nat} (small : value.toNat < 2 ^ exponent) :
    (value ||| value >>> shift).toNat < 2 ^ exponent := by
  exact Nat.or_lt_two_pow small (Nat.lt_of_le_of_lt (Nat.shiftRight_le _ _) small)

/-- The next power of two is positive and within the power that bounds the number. -/
theorem nextPowerOf2_bounds (small : value.toNat < 2 ^ exponent) (fits : exponent < 64) :
    0 < (nextPowerOf2 value).toNat ∧ (nextPowerOf2 value).toNat ≤ 2 ^ exponent := by
  have smears : ∃ smeared, nextPowerOf2 value = smeared + 1 ∧ smeared.toNat < 2 ^ exponent := by
    refine ⟨_, rfl, ?_⟩
    iterate 6 apply nextPowerOf2_step
    exact small
  obtain ⟨smeared, equal, below⟩ := smears
  have room : 2 ^ exponent < 2 ^ 64 := Nat.pow_lt_pow_right (by decide) fits
  have successor : (smeared + 1).toNat = smeared.toNat + 1 := by
    rw [BitVec.toNat_add_of_lt]
    · rfl
    · exact Nat.lt_of_le_of_lt below room
  rw [equal, successor]
  omega

/-- The Bloom filter has a word. -/
theorem bloomSize_pos {wordBits defined : Nat} (words : wordBits = 32 ∨ wordBits = 64)
    (few : defined < 2 ^ 31) :
    0 < (gnuHashTableHeader wordBits numGnuBuckets (firstDefined + defined)
      firstDefined).bloomSize.toNat := by
  rw [gnuHashTableHeader]
  simp only [Nat.add_sub_cancel_left]
  generalize count : BitVec.ofNat 64 (defined * 12 + wordBits - 1) / BitVec.ofNat 64 wordBits =
    bloomWords
  split
  · decide
  · next nonzero =>
      have small : (bloomWords - 1).toNat < 2 ^ 30 := by
        have quotient : bloomWords.toNat = (defined * 12 + wordBits - 1) / wordBits := by
          rw [← count, BitVec.toNat_udiv, BitVec.toNat_ofNat, BitVec.toNat_ofNat,
            Nat.mod_eq_of_lt (show defined * 12 + wordBits - 1 < 2 ^ 64 by omega),
            Nat.mod_eq_of_lt (show wordBits < 2 ^ 64 by omega)]
        have positive : bloomWords.toNat ≠ 0 := fun zero => nonzero (BitVec.eq_of_toNat_eq zero)
        have least : (1 : BitVec 64) ≤ bloomWords := by
          exact Nat.one_le_iff_ne_zero.mpr positive
        rw [BitVec.toNat_sub_of_le least, quotient]
        rcases words with rfl | rfl <;> omega
      obtain ⟨positive, atMost⟩ := nextPowerOf2_bounds small (by decide)
      rw [BitVec.truncate_eq_setWidth, BitVec.toNat_setWidth, Nat.mod_eq_of_lt] <;> omega

section Bloom

variable {wordBits : Nat} {header : GNUHashTableHeader}

theorem length_foldl_bloom (words : List (BitVec wordBits)) :
    (hashes.foldl (fun words hash =>
      words.modify (header.bloomIndex wordBits hash) (· ||| bloomBits wordBits hash))
      words).length = words.length := by
  induction hashes generalizing words with
  | nil => rfl
  | cons hash hashes ih => rw [List.foldl_cons, ih, List.length_modify]

@[simp] theorem length_bloomFilter :
    (header.bloomFilter wordBits hashes).length = header.bloomSize.toNat := by
  rw [GNUHashTableHeader.bloomFilter, length_foldl_bloom, List.length_replicate]

theorem foldl_bloom_keeps {words : List (BitVec wordBits)} {index : Nat}
    {word bits : BitVec wordBits} (present : words[index]? = some word)
    (set : word &&& bits = bits) :
    ∃ word', (hashes.foldl (fun words hash =>
      words.modify (header.bloomIndex wordBits hash) (· ||| bloomBits wordBits hash))
      words)[index]? = some word' ∧ word' &&& bits = bits := by
  induction hashes generalizing words word with
  | nil => exact ⟨word, present, set⟩
  | cons hash hashes ih =>
    have next : (words.modify (header.bloomIndex wordBits hash)
        (· ||| bloomBits wordBits hash))[index]? =
        some (if header.bloomIndex wordBits hash = index then
          word ||| bloomBits wordBits hash else word) := by
      rw [List.getElem?_modify, present, Option.map_eq_map, Option.map_some]
    apply ih next
    split
    · rw [BitVec.and_comm, BitVec.and_or_distrib_left, BitVec.and_comm, set]
      ext place inside
      simp only [BitVec.getElem_or, BitVec.getElem_and]
      cases bits[place] <;> simp
    · exact set

/-- The filter has the bits of every hash that was put into it. -/
theorem bloomFilter_of_mem (positive : 0 < header.bloomSize.toNat) (member : hash ∈ hashes) :
    ∃ word, (header.bloomFilter wordBits hashes)[header.bloomIndex wordBits hash]? = some word ∧
      word &&& bloomBits wordBits hash = bloomBits wordBits hash := by
  obtain ⟨before, after, rfl⟩ := List.append_of_mem member
  rw [GNUHashTableHeader.bloomFilter, List.foldl_append, List.foldl_cons]
  generalize filled : before.foldl _ _ = words
  have length : words.length = header.bloomSize.toNat := by
    rw [← filled, length_foldl_bloom, List.length_replicate]
  have inside : header.bloomIndex wordBits hash < words.length := by
    rw [length]
    exact Nat.mod_lt _ positive
  have present : (words.modify (header.bloomIndex wordBits hash)
      (· ||| bloomBits wordBits hash))[header.bloomIndex wordBits hash]? =
      some (words[header.bloomIndex wordBits hash] ||| bloomBits wordBits hash) := by
    rw [List.getElem?_modify, List.getElem?_eq_getElem inside, Option.map_eq_map, Option.map_some,
      if_pos rfl]
  apply foldl_bloom_keeps present
  ext place bit
  simp only [BitVec.getElem_or, BitVec.getElem_and]
  cases (bloomBits wordBits hash)[place] <;> simp

end Bloom

/-- Where the buckets start in the section. -/
def GNUHashTableHeader.bucketsAt (header : GNUHashTableHeader) (wordBits : Nat) : Nat :=
  16 + wordBits / 8 * header.bloomSize.toNat

/-- Where the chains start in the section. -/
def GNUHashTableHeader.chainsAt (header : GNUHashTableHeader) (wordBits : Nat) : Nat :=
  header.bucketsAt wordBits + 4 * header.numBuckets.toNat

@[simp] theorem GNUHashTableHeader.length_bytes (header : GNUHashTableHeader) :
    header.bytes.length = 16 :=
  length_arrayBytes 4 _

section Reading

variable {wordBits : Nat} {header : GNUHashTableHeader} {index : Nat}

/-- The section in its parts. -/
theorem createGNUHashTable_append (padding : List (BitVec 8)) :
    createGNUHashTable wordBits numGnuBuckets firstDefined hashes ++ padding =
      (gnuHashTableHeader wordBits numGnuBuckets (firstDefined + hashes.length)
        firstDefined).bytes ++
        (arrayBytes (wordBits / 8)
          (((gnuHashTableHeader wordBits numGnuBuckets (firstDefined + hashes.length)
            firstDefined).bloomFilter wordBits hashes).map BitVec.toNat) ++
          (arrayBytes 4
            ((writeHashTable numGnuBuckets firstDefined hashes).buckets.map BitVec.toNat) ++
            (arrayBytes 4
              ((writeHashTable numGnuBuckets firstDefined hashes).chains.map BitVec.toNat) ++
              padding))) := by
  simp [createGNUHashTable]

theorem fourBytes : 2 ^ 32 ≤ 256 ^ 4 := by
  decide

/-- A field of the header is read at its place. -/
theorem wordAt_headerBytes {field : BitVec 32} (after : List (BitVec 8))
    (present : [header.numBuckets, header.symoffset, header.bloomSize,
      header.bloomShift][index]? = some field) :
    wordAt 4 (header.bytes ++ after) (4 * index) = some field.toNat := by
  have read := wordAt_bitVecs [] after fourBytes present
  rwa [List.nil_append, List.length_nil, Nat.zero_add] at read

variable {bloom : List (BitVec wordBits)}

/-- A word of the Bloom filter is read at its place. -/
theorem wordAt_bloom (wholeBytes : wordBits = 32 ∨ wordBits = 64) {word : BitVec wordBits}
    (after : List (BitVec 8)) (present : bloom[index]? = some word) :
    wordAt (wordBits / 8)
        (header.bytes ++ (arrayBytes (wordBits / 8) (bloom.map BitVec.toNat) ++ after))
        (16 + wordBits / 8 * index) =
      some word.toNat := by
  have fits : 2 ^ wordBits ≤ 256 ^ (wordBits / 8) := by
    rcases wholeBytes with rfl | rfl <;> decide
  have read := wordAt_bitVecs header.bytes after fits present
  rwa [header.length_bytes] at read

variable {buckets : List (BitVec 32)} {word : BitVec 32}

/-- A bucket is read at its place. -/
theorem wordAt_bucket (after : List (BitVec 8)) (size : bloom.length = header.bloomSize.toNat)
    (present : buckets[index]? = some word) :
    wordAt 4
        (header.bytes ++ (arrayBytes (wordBits / 8) (bloom.map BitVec.toNat) ++
          (arrayBytes 4 (buckets.map BitVec.toNat) ++ after)))
        (header.bucketsAt wordBits + 4 * index) =
      some word.toNat := by
  have read := wordAt_bitVecs
    (header.bytes ++ arrayBytes (wordBits / 8) (bloom.map BitVec.toNat)) after fourBytes present
  rwa [List.length_append, header.length_bytes, length_arrayBytes, List.length_map, size] at read

theorem wordAt_chain {chains : List (BitVec 32)} (after : List (BitVec 8))
    (size : bloom.length = header.bloomSize.toNat)
    (count : buckets.length = header.numBuckets.toNat) (present : chains[index]? = some word) :
    wordAt 4
        (header.bytes ++ (arrayBytes (wordBits / 8) (bloom.map BitVec.toNat) ++
          (arrayBytes 4 (buckets.map BitVec.toNat) ++
            (arrayBytes 4 (chains.map BitVec.toNat) ++ after))))
        (header.chainsAt wordBits + 4 * index) =
      some word.toNat := by
  have read := wordAt_bitVecs
    (header.bytes ++ (arrayBytes (wordBits / 8) (bloom.map BitVec.toNat) ++
      arrayBytes 4 (buckets.map BitVec.toNat))) after fourBytes present
  simp only [List.append_assoc] at read
  rw [List.length_append, List.length_append, header.length_bytes, length_arrayBytes,
    length_arrayBytes, List.length_map, List.length_map, size, count, ← Nat.add_assoc] at read
  exact read

end Reading

end DaveCC.Linking
