import DaveCC.Linker.DynamicLookup

/-!
# Lookups through the hash section

The two searches agree, and the table is divided as the hash section says, exactly if the
strings can be named and every symbol is as defined when it is written as it was when the
table was built.
-/

namespace DaveCC.Linking

open DaveCC.Arith DaveCC.Container LoadedDynamicLibrary

/-- A terminated string is equal to a name exactly if it is that name. -/
theorem stringEquals_terminated {string name : Name} (after : List (BitVec 8))
    (stringEnds : (0 : BitVec 8) ∉ string) (nameEnds : (0 : BitVec 8) ∉ name) :
    stringEquals (terminated string ++ after) name = some (decide (string = name)) := by
  induction string generalizing name with
  | nil =>
    cases name with
    | nil => rfl
    | cons c name =>
      rw [List.mem_cons, not_or] at nameEnds
      exact if_neg nameEnds.1
  | cons byte string ih =>
    rw [List.mem_cons, not_or] at stringEnds
    cases name with
    | nil =>
      have nonzero : (byte == 0) = false := beq_false_of_ne (Ne.symm stringEnds.1)
      rw [terminated, List.cons_append, List.cons_append, stringEquals, nonzero]
      rfl
    | cons c name =>
      rw [List.mem_cons, not_or] at nameEnds
      rw [terminated, List.cons_append, List.cons_append, stringEquals]
      by_cases same : byte = c
      · rw [if_pos same]
        refine (ih stringEnds.2 nameEnds.2).trans ?_
        rw [same]
        simp only [List.cons.injEq, true_and]
      · rw [if_neg same]
        simp [same]

theorem cString_terminated {string : Name} (after : List (BitVec 8))
    (stringEnds : (0 : BitVec 8) ∉ string) : cString (terminated string ++ after) = string := by
  have nonzero : ∀ byte ∈ string, (byte != 0) = true := by
    intro byte member
    exact bne_iff_ne.mpr fun zero => stringEnds (zero ▸ member)
  rw [cString, terminated, List.append_assoc, List.takeWhile_append_of_pos nonzero,
    List.singleton_append, List.takeWhile_cons_of_neg (by decide), List.append_nil]

namespace DynamicLink

variable {link : DynamicLink}

/-- At most three symbols are not exported. -/
theorem length_symbols_le (globals : GlobalSymbolTable) :
    globals.symbols.length ≤ globals.exported.length + 3 := by
  have split : globals.symbols.length = globals.exported.length +
      (globals.symbols.filter LinkerSymbol.isAnchor).length := by
    have perm := List.filter_append_perm LinkerSymbol.isAnchor globals.symbols
    rw [← perm.length_eq, List.length_append, Nat.add_comm]
    rfl
  have distinct : ((globals.symbols.filter LinkerSymbol.isAnchor).map LinkerSymbol.name).Nodup :=
    globals.distinct.sublist (List.filter_sublist.map _)
  have anchors : (globals.symbols.filter LinkerSymbol.isAnchor).map LinkerSymbol.name ⊆
      [[], asciiName "_DYNAMIC_", asciiName "_GLOBAL_OFFSET_TABLE_"] := by
    intro name member
    obtain ⟨symbol, symbolMem, rfl⟩ := List.mem_map.mp member
    have anchor := (List.mem_filter.mp symbolMem).2
    simp only [LinkerSymbol.isAnchor, Bool.or_eq_true, Bool.and_eq_true, beq_iff_eq,
      List.length_eq_zero_iff] at anchor
    rcases anchor with empty | ⟨-, dynamic | offsets⟩
    · rw [empty]
      exact List.mem_cons_self
    · rw [dynamic]
      exact List.mem_cons_of_mem _ List.mem_cons_self
    · rw [offsets]
      exact List.mem_cons_of_mem _ (List.mem_cons_of_mem _ List.mem_cons_self)
  have atMost := (List.subperm_of_subset distinct anchors).length_le
  rw [List.length_map] at atMost
  simp only [List.length_cons, List.length_nil] at atMost
  omega

theorem stringsOf_eq (symbols : List LinkerSymbol) :
    stringsOf symbols = (symbols.map LinkerSymbol.name).flatMap terminated :=
  (List.flatMap_map LinkerSymbol.name terminated symbols).symm

/-- Where the strings can be named, the symbols can be counted. -/
theorem length_exported_lt
    (representable : ∀ earlier symbol later, link.globals.exported = earlier ++ symbol :: later →
      link.stringStart earlier < 2 ^ 32) : link.globals.exported.length < 2 ^ 30 + 65795 := by
  cases exported : link.globals.exported using List.reverseRecOn with
  | nil => decide
  | append_singleton earlier last _ =>
    have start := representable earlier last [] exported
    have distinct : (link.globals.exported.map LinkerSymbol.name).Nodup := exported_distinct
    rw [exported, List.map_append] at distinct
    have bytes := four_mul_length_le (List.nodup_append.mp distinct).1
    rw [← stringsOf_eq, List.length_map] at bytes
    rw [stringStart, List.length_cons] at start
    rw [List.length_append, List.length_singleton]
    omega

/-- The number of buckets is positive and an `int`. -/
theorem numGnuBuckets_bounds {globals : GlobalSymbolTable}
    (few : globals.table.objectCount < 2 ^ 31) :
    0 < globals.numGnuBuckets.toNat ∧ globals.numGnuBuckets.toNat < 2 ^ 31 := by
  have quotient : ((BitVec.ofNat 32 globals.table.objectCount).sdiv 4).toNat =
      globals.table.objectCount / 4 := by
    have asNat : (BitVec.ofNat 32 globals.table.objectCount).toNat = globals.table.objectCount := by
      rw [BitVec.toNat_ofNat, Nat.mod_eq_of_lt (by omega)]
    have positiveSign : (BitVec.ofNat 32 globals.table.objectCount).msb = false := by
      rw [BitVec.msb_eq_false_iff_two_mul_lt, asNat]
      omega
    have four : (4 : BitVec 32).msb = false := by decide
    rw [BitVec.sdiv_eq, positiveSign, four]
    exact congrArg (· / 4) asNat
  rw [GlobalSymbolTable.numGnuBuckets]
  split
  · decide
  · next nonzero =>
      have positive : ((BitVec.ofNat 32 globals.table.objectCount).sdiv 4).toNat ≠ 0 :=
        fun zero => nonzero (BitVec.eq_of_toNat_eq zero)
      omega

/-- The parts of a sorted table whose numbers can be represented. -/
structure LaidOut (link : DynamicLink) (undefined defined : List DynamicSymbolFixup) : Prop where
  divided : Divided link.globals.numGnuBuckets
    (fixupsFrom (0 :: link.strings).length link.globals.exported) link.sorted undefined defined
    link.firstDefined
  positive : 0 < link.globals.numGnuBuckets.toNat
  buckets : link.globals.numGnuBuckets.toNat < 2 ^ 31
  few : (undefined ++ defined).length + 1 < 2 ^ 31
  representable : ∀ earlier symbol later, link.globals.exported = earlier ++ symbol :: later →
    link.stringStart earlier < 2 ^ 32

/-- A table whose strings can be named is laid out. -/
theorem exists_laidOut (representable : ∀ earlier symbol later, link.globals.exported = earlier ++
      symbol :: later → link.stringStart earlier < 2 ^ 32) :
    ∃ undefined defined, link.LaidOut undefined defined := by
  have few := length_exported_lt representable
  have all := length_symbols_le link.globals
  have objects := link.globals.counted
  have bounds := numGnuBuckets_bounds (show link.globals.table.objectCount < 2 ^ 31 by
    rw [objects]; exact Nat.lt_of_le_of_lt all (by omega))
  have sorts := link.sorts
  rw [dynamicSymbols_eq] at sorts
  obtain ⟨undefined, defined, divided⟩ := sorts.divided bounds.1 bounds.2
  have count := divided.perm.length_eq
  rw [length_fixupsFrom] at count
  exact ⟨undefined, defined, divided, bounds.1, bounds.2, by omega, representable⟩

namespace LaidOut

variable {undefined defined : List DynamicSymbolFixup} {fixup : DynamicSymbolFixup} {index : Nat}
  (laid : link.LaidOut undefined defined)
include laid

theorem hashes_eq : link.hashes = defined.map DynamicSymbolFixup.hash := by
  rw [DynamicLink.hashes, laid.divided.eq, laid.divided.firstDefined, List.drop_succ_cons,
    List.drop_left]

theorem symoffset_toNat : link.header.symoffset.toNat = link.firstDefined := by
  have few := laid.few
  have first := laid.divided.firstDefined
  rw [List.length_append] at few
  rw [header, gnuHashTableHeader, BitVec.toNat_ofNat, Nat.mod_eq_of_lt (by omega)]

/-- The symbol of a fixup is exported, and its string is where the fixup says. -/
theorem exported_of_mem (member : fixup ∈ undefined ++ defined) :
    ∃ earlier later, link.globals.exported = earlier ++ fixup.symbol :: later ∧
      fixup.nameOffset.toNat = link.stringStart earlier ∧
      fixup.hash = dynamicLoaderGNUHash fixup.symbol.name := by
  obtain ⟨earlier, later, split, offset, hash⟩ :=
    mem_fixupsFrom (laid.divided.perm.mem_iff.mp member)
  refine ⟨earlier, later, split, ?_, hash⟩
  rw [offset, BitVec.toNat_ofNat]
  exact Nat.mod_eq_of_lt (laid.representable _ _ _ split)

theorem mem_exported (member : fixup ∈ undefined ++ defined) :
    fixup.symbol ∈ link.globals.exported := by
  obtain ⟨earlier, later, split, -⟩ := laid.exported_of_mem member
  rw [split]
  exact List.mem_append_right _ List.mem_cons_self

theorem name_ends (member : fixup ∈ undefined ++ defined) : (0 : BitVec 8) ∉ fixup.symbol.name :=
  link.globals.terminated _ (List.mem_filter.mp (laid.mem_exported member)).1

theorem names_distinct : ((undefined ++ defined).map (·.symbol.name)).Nodup := by
  have perm := laid.divided.perm.map (·.symbol.name)
  apply perm.nodup_iff.mpr
  have names : (fixupsFrom (0 :: link.strings).length link.globals.exported).map
      (·.symbol.name) = link.globals.exported.map LinkerSymbol.name := by
    conv_rhs => rw [← map_symbol_fixupsFrom (0 :: link.strings).length link.globals.exported]
    rw [List.map_map]
    rfl
  rw [names]
  exact exported_distinct

/-- The string table from the string of a fixup on. -/
theorem dynstr_drop (member : fixup ∈ undefined ++ defined) :
    ∃ after, link.dynstr.drop fixup.nameOffset.toNat = terminated fixup.symbol.name ++ after := by
  obtain ⟨earlier, later, split, offset, -⟩ := laid.exported_of_mem member
  have strings : stringsOf link.globals.exported =
      stringsOf earlier ++ (terminated fixup.symbol.name ++ stringsOf later) := by
    rw [split, stringsOf_append]
    rfl
  refine ⟨stringsOf later ++ link.dynstrPadding, ?_⟩
  rw [dynstr, dynamicSymbols_eq, offset, stringStart, ← List.length_append, strings]
  simp only [List.append_assoc]
  rw [← List.append_assoc, List.drop_left]

/-- The writing of the table. -/
theorem writes :
    WritesFrom link.output link.now 1 (undefined ++ defined)
      { dynsym := List.replicate ((undefined ++ defined).length + 1) .null
        dynamicIndex := fun _ => -1 }
      link.written := by
  rw [written, laid.divided.eq]
  exact writesFrom_fixupDynamicSymbolTable laid.names_distinct

theorem length_dynsym : link.written.dynsym.length = (undefined ++ defined).length + 1 :=
  laid.writes.length.trans List.length_replicate

theorem dynsym_zero : link.written.dynsym[0]? = some .null := by
  rw [laid.writes.untouched 0 Nat.one_pos]
  rfl

theorem dynsym_succ (present : (undefined ++ defined)[index]? = some fixup) :
    link.written.dynsym[index + 1]? =
      some (link.output.dynamicSymbol fixup.nameOffset (link.now fixup.symbol)) := by
  rw [Nat.add_comm]
  exact laid.writes.dynsym index fixup present

theorem nameAt_succ (present : (undefined ++ defined)[index]? = some fixup) :
    link.nameAt (index + 1) = fixup.symbol.name := by
  obtain ⟨after, strings⟩ := laid.dynstr_drop (List.mem_of_getElem? present)
  rw [nameAt, List.getD_eq_getElem?_getD, laid.dynsym_succ present]
  exact (congrArg cString strings).trans
    (cString_terminated after (laid.name_ends (List.mem_of_getElem? present)))

/-- The string of a written symbol is compared as the name of the symbol. -/
theorem stringEquals_drop (member : fixup ∈ undefined ++ defined) {name : Name}
    (nameEnds : (0 : BitVec 8) ∉ name) :
    stringEquals (link.dynstr.drop fixup.nameOffset.toNat) name =
      some (decide (fixup.symbol.name = name)) := by
  obtain ⟨after, strings⟩ := laid.dynstr_drop member
  rw [strings]
  exact stringEquals_terminated after (laid.name_ends member) nameEnds

theorem dynamicIndex_eq (present : (undefined ++ defined)[index]? = some fixup) :
    link.written.dynamicIndex fixup.symbol.name = (index + 1 : Nat) := by
  have inside := (List.getElem?_eq_some_iff.mp present).1
  have few := laid.few
  rw [laid.writes.dynamicIndex index fixup present, Nat.add_comm, toInt_ofNat_of_lt (by omega)]

/-- A fixup is at or after the first defined one exactly if its symbol was defined. -/
theorem firstDefined_le_iff (present : (undefined ++ defined)[index]? = some fixup) :
    link.firstDefined ≤ index + 1 ↔ fixup.symbol.header.shndx ≠ 0 := by
  rw [laid.divided.firstDefined]
  by_cases before : index < undefined.length
  · rw [List.getElem?_append_left before] at present
    have isUndefined := laid.divided.isUndefined fixup (List.mem_of_getElem? present)
    rw [DynamicSymbolFixup.isUndefined, beq_iff_eq] at isUndefined
    constructor
    · intro after
      omega
    · intro isDefined
      exact absurd isUndefined isDefined
  · rw [List.getElem?_append_right (by omega)] at present
    have isDefined := laid.divided.isDefined fixup (List.mem_of_getElem? present)
    rw [DynamicSymbolFixup.isUndefined, beq_eq_false_iff_ne] at isDefined
    constructor
    · intro _
      exact isDefined
    · intro _
      omega

end LaidOut

/-- The section index of a written symbol is not zero exactly if the symbol has a section. -/
theorem dynamicSymbol_shndx (nameOffset : BitVec 32) (symbol : LinkerSymbol) :
    (link.output.dynamicSymbol nameOffset symbol).shndx ≠ 0 ↔ link.HasSection symbol := by
  rw [OutputSections.dynamicSymbol, OutputSections.sectionIndex, HasSection]
  cases isDefined : symbol.defined with
  | false => simp
  | true =>
    cases imported : symbol.fromDynamicLibrary with
    | true => simp
    | false =>
      cases symbol.definingSection with
      | some definingSection => simp
      | none =>
        simp only [Bool.not_true, Bool.or_self, Bool.false_eq_true, if_false, true_and,
          Bool.or_eq_true, Bool.and_eq_true, decide_eq_true_eq, bne_iff_ne]
        split
        · simp
        · rfl

theorem wordBits_eq (link : DynamicLink) : link.wordBits = 32 ∨ link.wordBits = 64 := by
  rw [wordBits]
  cases link.output.is64Bit
  · exact .inl rfl
  · exact .inr rfl

/-- The entry of a hash ends its chain. -/
def Closes (link : DynamicLink) (index : Nat) : Prop :=
  ∀ hash next, link.hashes[index]? = some hash → link.hashes[index + 1]? = some next →
    next % link.globals.numGnuBuckets ≠ hash % link.globals.numGnuBuckets

/-- The arrays of the hash section. -/
def arrays (link : DynamicLink) : HashChains :=
  writeHashTable link.globals.numGnuBuckets link.firstDefined link.hashes

theorem hashSection_eq (link : DynamicLink) :
    link.hashSection = link.header.bytes ++
      (arrayBytes (link.wordBits / 8)
        ((link.header.bloomFilter link.wordBits link.hashes).map BitVec.toNat) ++
        (arrayBytes 4 (link.arrays.buckets.map BitVec.toNat) ++
          (arrayBytes 4 (link.arrays.chains.map BitVec.toNat) ++ link.hashPadding))) :=
  createGNUHashTable_append link.hashPadding

theorem word32At_of_wordAt {table : List (BitVec 8)} {offset : Nat} {word : BitVec 32}
    (read : wordAt 4 table offset = some word.toNat) :
    LoadedDynamicLibrary.word32At table offset = some word := by
  rw [LoadedDynamicLibrary.word32At, if_pos (Int.natCast_nonneg offset), Int.toNat_natCast, read,
    Option.map_some, BitVec.ofNat_toNat, BitVec.setWidth_eq]

theorem read_header (link : DynamicLink) (index : Nat) {field : BitVec 32}
    (present : [link.header.numBuckets, link.header.symoffset, link.header.bloomSize,
      link.header.bloomShift][index]? = some field) :
    LoadedDynamicLibrary.word32At link.hashSection (4 * index : Nat) = some field := by
  apply word32At_of_wordAt
  exact wordAt_headerBytes _ present

namespace LaidOut

variable {undefined defined : List DynamicSymbolFixup} {index : Nat} {hash : BitVec 32}
  (laid : link.LaidOut undefined defined)
include laid

theorem length_hashes : link.hashes.length = defined.length := by
  rw [laid.hashes_eq, List.length_map]

/-- The arrays chain the hashes. -/
theorem chained :
    Chained link.globals.numGnuBuckets link.firstDefined link.hashes.length 1 link.hashes
      link.arrays := by
  apply chained_writeHashTable laid.positive laid.buckets
  · rw [laid.hashes_eq, InBucketOrder, List.pairwise_map]
    exact laid.divided.ordered
  · have few := laid.few
    rw [List.length_append] at few
    rw [laid.length_hashes]
    omega

/-- A bucket of the section is where its first symbol is. -/
theorem read_bucket (inside : index < link.globals.numGnuBuckets.toNat) :
    LoadedDynamicLibrary.word32At link.hashSection
        (link.header.bucketsAt link.wordBits + 4 * index : Nat) =
      some (bucketStart link.globals.numGnuBuckets link.firstDefined link.hashes index) := by
  apply word32At_of_wordAt
  rw [hashSection_eq]
  exact wordAt_bucket _ length_bloomFilter (laid.chained.bucket index inside)

/-- A chain entry of the section is that of its hash. -/
theorem read_chain (present : link.hashes[index]? = some hash) :
    LoadedDynamicLibrary.word32At link.hashSection
        (link.header.chainsAt link.wordBits + 4 * index : Nat) =
      some (chainEntry link.globals.numGnuBuckets 1 hash link.hashes[index + 1]?) := by
  apply word32At_of_wordAt
  rw [hashSection_eq]
  exact wordAt_chain _ length_bloomFilter laid.chained.buckets_length
    (laid.chained.chain index hash present)

omit laid in
/-- The bottom bit of an entry tells whether the chain ends there. -/
theorem chainEntry_bit (present : link.hashes[index]? = some hash) :
    chainEntry link.globals.numGnuBuckets 1 hash link.hashes[index + 1]? &&& 1 ≠ 0 ↔
      link.Closes index := by
  rw [chainEntry_and_one, Closes, present]
  cases link.hashes[index + 1]? with
  | none =>
    constructor
    · intro _ _ _ _ absent
      cases absent
    · intro _
      exact (by decide : (1 : BitVec 32) &&& 1 ≠ 0)
  | some next =>
    simp only [Option.some.injEq]
    split
    · next different =>
        constructor
        · rintro _ _ _ rfl rfl
          exact different
        · intro _
          decide
    · next same =>
        constructor
        · intro set
          exact absurd rfl set
        · intro closes
          exact absurd (closes hash next rfl rfl) same

omit laid in
/-- A chain closes at the last hash at the latest. -/
theorem exists_closes (inside : index < link.hashes.length) :
    ∃ last, index ≤ last ∧ last < link.hashes.length ∧ link.Closes last ∧
      ∀ between, index ≤ between → between < last → ¬ link.Closes between := by
  classical
  have closes : ∃ last, index ≤ last ∧ last < link.hashes.length ∧ link.Closes last := by
    refine ⟨link.hashes.length - 1, by omega, by omega, ?_⟩
    intro hash next _ absent
    rw [List.getElem?_eq_none (by omega)] at absent
    cases absent
  obtain ⟨after, before, ends⟩ := Nat.find_spec closes
  refine ⟨Nat.find closes, after, before, ends, ?_⟩
  intro between least below closesEarlier
  exact Nat.find_min closes below ⟨least, by omega, closesEarlier⟩

variable {bucket : Nat}

/-- The start of a bucket is an index of the table. -/
theorem bucketStart_toNat (found : (link.hashes.findIdx? fun hash => (hash %
      link.globals.numGnuBuckets).toNat == bucket) = some index) :
    (bucketStart link.globals.numGnuBuckets link.firstDefined link.hashes bucket).toNat =
        link.firstDefined + index ∧
      index < link.hashes.length := by
  have inside : index < link.hashes.length :=
    (List.findIdx?_eq_some_iff_getElem.mp found).1
  have few := laid.few
  have first := laid.divided.firstDefined
  rw [List.length_append] at few
  rw [laid.length_hashes] at inside
  rw [bucketStart, found, Option.map_some, Option.getD_some, BitVec.toNat_ofNat,
    Nat.mod_eq_of_lt (by omega), laid.length_hashes]
  exact ⟨rfl, inside⟩

theorem chainEnds (inside : bucket < link.header.numBuckets.toNat) : link.ChainEnds bucket := by
  refine ⟨_, laid.read_bucket inside, ?_⟩
  rw [BitVec.lt_def, laid.symoffset_toNat]
  cases found : link.hashes.findIdx? fun hash =>
      (hash % link.globals.numGnuBuckets).toNat == bucket with
  | none =>
    left
    rw [bucketStart, found, laid.divided.firstDefined]
    exact Nat.succ_pos _
  | some first =>
    right
    obtain ⟨start, firstInside⟩ := laid.bucketStart_toNat found
    obtain ⟨last, least, below, ends, open_⟩ := exists_closes firstInside
    rw [start]
    refine ⟨link.firstDefined + last, by omega, ?_, ?_⟩
    · rw [laid.length_dynsym, List.length_append, laid.divided.firstDefined]
      rw [laid.length_hashes] at below
      omega
    · intro index fromStart toLast
      obtain ⟨place, rfl⟩ := Nat.exists_eq_add_of_le (Nat.le_of_add_right_le fromStart)
      rw [Nat.add_sub_cancel_left]
      have present := List.getElem?_eq_getElem (show place < link.hashes.length by omega)
      refine ⟨_, laid.read_chain present, ?_⟩
      rw [chainEntry_bit present]
      constructor
      · intro closes
        by_contra different
        exact open_ place (by omega) (by omega) closes
      · intro same
        rw [show place = last by omega]
        exact ends

end LaidOut

/-! ## Walking along a chain -/

namespace LaidOut

variable {undefined defined : List DynamicSymbolFixup} {fixup : DynamicSymbolFixup}
  {name : Name} {index steps : Nat} (laid : link.LaidOut undefined defined)

/-- The walk for a name from the symbol at a place among the defined ones. -/
def walk (link : DynamicLink) (name : Name) (steps index : Nat) : Option (Option Nat) :=
  link.library.walkChain link.hashSection (link.header.chainsAt link.wordBits)
    link.header.symoffset (dynamicLoaderGNUHash name) name steps
    (BitVec.ofNat 32 (link.firstDefined + index))

include laid

theorem dynsym_defined (present : defined[index]? = some fixup) :
    link.written.dynsym[link.firstDefined + index]? =
      some (link.output.dynamicSymbol fixup.nameOffset (link.now fixup.symbol)) := by
  have placed : (undefined ++ defined)[undefined.length + index]? = some fixup := by
    rw [List.getElem?_append_right (by omega), Nat.add_sub_cancel_left, present]
  rw [laid.divided.firstDefined, Nat.add_right_comm]
  exact laid.dynsym_succ placed

/-- The symbol and the chain entry that a step of the walk reads. -/
theorem walk_reads (present : defined[index]? = some fixup) :
    link.library.symbolAt (BitVec.ofNat 32 (link.firstDefined + index)) =
        some (link.output.dynamicSymbol fixup.nameOffset (link.now fixup.symbol)) ∧
      LoadedDynamicLibrary.word32At link.hashSection
          (link.header.chainsAt link.wordBits + 4 *
            (BitVec.ofNat 32 (link.firstDefined + index) - link.header.symoffset).toNat) =
        some (chainEntry link.globals.numGnuBuckets 1 fixup.hash link.hashes[index + 1]?) := by
  have inside := (List.getElem?_eq_some_iff.mp present).1
  have few := laid.few
  have first := laid.divided.firstDefined
  rw [List.length_append] at few
  constructor
  · rw [LoadedDynamicLibrary.symbolAt, toInt_ofNat_of_lt (by omega),
      if_pos (Int.natCast_nonneg _), Int.toNat_natCast]
    exact laid.dynsym_defined present
  · have hashed : link.hashes[index]? = some fixup.hash := by
      rw [laid.hashes_eq, List.getElem?_map, present, Option.map_some]
    have difference : (BitVec.ofNat 32 (link.firstDefined + index) -
        link.header.symoffset).toNat = index := by
      have asNat : (BitVec.ofNat 32 (link.firstDefined + index)).toNat =
          link.firstDefined + index := by
        rw [BitVec.toNat_ofNat, Nat.mod_eq_of_lt (by omega)]
      rw [BitVec.toNat_sub, asNat, laid.symoffset_toNat]
      omega
    have read := laid.read_chain hashed
    rw [difference]
    push_cast at read
    exact read

section

variable (hasSections : ∀ fixup ∈ defined, link.HasSection (link.now fixup.symbol))
  (nameEnds : (0 : BitVec 8) ∉ name)

include hasSections nameEnds

/-- What one step of the walk does. -/
theorem walk_succ (present : defined[index]? = some fixup) :
    walk link name (steps + 1) index =
      if fixup.symbol.name = name then some (some (link.firstDefined + index))
      else if chainEntry link.globals.numGnuBuckets 1 fixup.hash link.hashes[index + 1]? &&& 1 ≠ 0
        then some none
      else walk link name steps (index + 1) := by
  have inside := (List.getElem?_eq_some_iff.mp present).1
  have member := List.mem_append_right undefined (List.mem_of_getElem? present)
  have few := laid.few
  have first := laid.divided.firstDefined
  rw [List.length_append] at few
  have asNat : (BitVec.ofNat 32 (link.firstDefined + index)).toNat =
      link.firstDefined + index := by
    rw [BitVec.toNat_ofNat, Nat.mod_eq_of_lt (by omega)]
  have next : BitVec.ofNat 32 (link.firstDefined + index) + 1 =
      BitVec.ofNat 32 (link.firstDefined + (index + 1)) := by
    apply BitVec.eq_of_toNat_eq
    rw [BitVec.toNat_add, asNat, BitVec.toNat_ofNat]
    rfl
  have nonzero := (dynamicSymbol_shndx fixup.nameOffset (link.now fixup.symbol)).mpr
    (hasSections fixup (List.mem_of_getElem? present))
  obtain ⟨symbolRead, chainRead⟩ := laid.walk_reads present
  have compared := laid.stringEquals_drop member nameEnds
  have matched : link.library.isWanted (dynamicLoaderGNUHash name) name
      (link.output.dynamicSymbol fixup.nameOffset (link.now fixup.symbol))
      (chainEntry link.globals.numGnuBuckets 1 fixup.hash link.hashes[index + 1]?) =
      some (decide (fixup.symbol.name = name)) := by
    rw [LoadedDynamicLibrary.isWanted, chainEntry_or_one_eq]
    split
    · exact compared
    · next different =>
        have otherName : fixup.symbol.name ≠ name := by
          rintro rfl
          obtain ⟨_, _, _, _, hash⟩ := laid.exported_of_mem member
          exact different (by rw [hash])
        rw [decide_eq_false otherName]
  rw [walk, walkChain, symbolRead, Option.bind_eq_bind, Option.bind_some,
    chainRead, Option.bind_eq_bind, Option.bind_some, matched, Option.bind_eq_bind,
    Option.bind_some, if_neg nonzero, asNat, next]
  by_cases same : fixup.symbol.name = name
  · rw [if_pos (decide_eq_true same), if_pos same]
  · rw [if_neg (by simpa using same), if_neg same]
    rfl

/-- Without a symbol of the name the walk ends with the chain. -/
theorem walk_missing (absent : ∀ fixup ∈ defined, fixup.symbol.name ≠ name)
    (inside : index < defined.length) (enough : defined.length ≤ index + steps) :
    walk link name steps index = some none := by
  induction steps generalizing index with
  | zero => omega
  | succ steps ih =>
    have present := List.getElem?_eq_getElem inside
    rw [laid.walk_succ hasSections nameEnds present,
      if_neg (absent _ (List.mem_of_getElem? present))]
    split
    · rfl
    · next open_ =>
        have hashed : link.hashes[index]? = some defined[index].hash := by
          rw [laid.hashes_eq, List.getElem?_map, present, Option.map_some]
        rw [chainEntry_bit hashed] at open_
        apply ih
        · by_contra atEnd
          apply open_
          intro hash next _ beyond
          have length := laid.length_hashes
          rw [List.getElem?_eq_none (by omega)] at beyond
          cases beyond
        · omega

/-- The walk from the start of its bucket finds the symbol of the name. -/
theorem walk_finds {wanted : Nat} (present : defined[wanted]? = some fixup)
    (named : fixup.symbol.name = name) (before : index ≤ wanted)
    (sameBucket : ∀ place (other : DynamicSymbolFixup), index ≤ place →
      place ≤ wanted → defined[place]? = some other → other.bucket link.globals.numGnuBuckets =
      fixup.bucket link.globals.numGnuBuckets) (enough : wanted < index + steps) :
    walk link name steps index = some (some (link.firstDefined + wanted)) := by
  induction steps generalizing index with
  | zero => omega
  | succ steps ih =>
    have inside := (List.getElem?_eq_some_iff.mp present).1
    have here := List.getElem?_eq_getElem (show index < defined.length by omega)
    rw [laid.walk_succ hasSections nameEnds here]
    by_cases isWanted : index = wanted
    · subst isWanted
      rw [here] at present
      obtain rfl := Option.some.inj present
      rw [if_pos named]
    · have otherName : defined[index].symbol.name ≠ name := by
        intro same
        have distinct := laid.names_distinct
        rw [List.map_append, List.nodup_append] at distinct
        have equal : (defined.map (·.symbol.name))[index]? =
            (defined.map (·.symbol.name))[wanted]? := by
          rw [List.getElem?_map, List.getElem?_map, here, present, Option.map_some,
            Option.map_some, same, named]
        exact isWanted ((List.getElem?_inj (by rw [List.length_map]; omega) distinct.2.1).mp equal)
      have hashed : link.hashes[index]? = some defined[index].hash := by
        rw [laid.hashes_eq, List.getElem?_map, here, Option.map_some]
      have continues : ¬ link.Closes index := by
        have following := List.getElem?_eq_getElem (show index + 1 < defined.length by omega)
        have nextHashed : link.hashes[index + 1]? = some defined[index + 1].hash := by
          rw [laid.hashes_eq, List.getElem?_map, following, Option.map_some]
        intro closes
        apply closes _ _ hashed nextHashed
        apply BitVec.eq_of_toNat_eq
        exact (sameBucket (index + 1) _ (by omega) (by omega) following).trans
          (sameBucket index _ le_rfl before here).symm
      rw [if_neg otherName, if_neg ((chainEntry_bit hashed).not.mpr continues)]
      apply ih (by omega)
      · intro place other least
        exact sameBucket place other (by omega)
      · omega

end

end LaidOut

section Slowly

variable {library : LoadedDynamicLibrary} {name : Name}

/-- A symbol that the slow search passes over. -/
def PassedOver (library : LoadedDynamicLibrary) (name : Name) (index : Nat) : Prop :=
  ∃ symbol, library.dynsym[index]? = some symbol ∧
    (symbol.shndx = 0 ∨ stringEquals (library.dynstr.drop symbol.name) name = some false)

theorem findSlowlyAmong_passedOver {index : Nat} {rest : List Nat}
    (passed : PassedOver library name index) :
    library.findSlowlyAmong name (index :: rest) = library.findSlowlyAmong name rest := by
  obtain ⟨symbol, read, passed⟩ := passed
  rw [findSlowlyAmong, read, Option.bind_eq_bind, Option.bind_some]
  split
  · rfl
  · next isDefined =>
      rw [passed.resolve_left isDefined]
      rfl

/-- Where every symbol is passed over, none is found. -/
theorem findSlowlyAmong_eq_none {indices : List Nat}
    (passed : ∀ index ∈ indices, PassedOver library name index) :
    library.findSlowlyAmong name indices = some none := by
  induction indices with
  | nil => rfl
  | cons index indices ih =>
    rw [findSlowlyAmong_passedOver (passed index List.mem_cons_self)]
    exact ih fun other member => passed other (List.mem_cons_of_mem _ member)

/-- The first symbol that is not passed over is found. -/
theorem findSlowlyAmong_finds {before after : List Nat} {index : Nat} {symbol : ELFSymbol}
    (passed : ∀ index ∈ before, PassedOver library name index)
    (read : library.dynsym[index]? = some symbol) (isDefined : symbol.shndx ≠ 0)
    (same : stringEquals (library.dynstr.drop symbol.name) name = some true) :
    library.findSlowlyAmong name (before ++ index :: after) = some (some index) := by
  induction before with
  | nil =>
    rw [List.nil_append, findSlowlyAmong, read, Option.bind_eq_bind,
      Option.bind_some, if_neg isDefined, same]
    rfl
  | cons first before ih =>
    rw [List.cons_append, findSlowlyAmong_passedOver (passed first List.mem_cons_self)]
    exact ih fun other member => passed other (List.mem_cons_of_mem _ member)

end Slowly

/-! ## The two searches -/

namespace LaidOut

variable {undefined defined : List DynamicSymbolFixup} {fixup : DynamicSymbolFixup}
  {name : Name} {index : Nat} (laid : link.LaidOut undefined defined)
include laid

/-- The steps that the walk is given suffice for the whole table. -/
theorem length_defined_le : defined.length ≤ link.hashSection.length := by
  have chains := laid.chained.chains_length
  have length := laid.length_hashes
  rw [hashSection_eq]
  simp only [List.length_append, length_arrayBytes, List.length_map]
  omega

/-- The hash section that is read: the Bloom filter, the bucket and the chain. -/
theorem findSymbolByHash_eq (wide : link.output.is64Bit = true) (name : Name) :
    ∃ word, (link.header.bloomFilter 64 link.hashes)[link.header.bloomIndex 64
        (dynamicLoaderGNUHash name)]? = some word ∧
      link.library.findSymbolByHash link.hashSection name =
        if word &&& bloomBits 64 (dynamicLoaderGNUHash name) ≠
            bloomBits 64 (dynamicLoaderGNUHash name) then some none
        else
          let start := bucketStart link.globals.numGnuBuckets link.firstDefined link.hashes
            (dynamicLoaderGNUHash name % link.globals.numGnuBuckets).toNat
          if start < link.header.symoffset then some none
          else
            link.library.walkChain link.hashSection (link.header.chainsAt link.wordBits)
              link.header.symoffset (dynamicLoaderGNUHash name) name link.hashSection.length
              start := by
  have bits : link.wordBits = 64 := by rw [wordBits, if_pos wide]
  have few := laid.few
  rw [List.length_append] at few
  have bloomPositive : 0 < link.header.bloomSize.toNat :=
    bloomSize_pos link.wordBits_eq (by rw [laid.length_hashes]; omega)
  have bloomNonzero : link.header.bloomSize ≠ 0 := by
    intro zero
    rw [zero] at bloomPositive
    exact absurd bloomPositive (by decide)
  have bucketsNonzero : link.globals.numGnuBuckets ≠ 0 := by
    intro zero
    have positive := laid.positive
    rw [zero] at positive
    exact absurd positive (by decide)
  have inside : link.header.bloomIndex 64 (dynamicLoaderGNUHash name) <
      (link.header.bloomFilter 64 link.hashes).length := by
    rw [length_bloomFilter]
    exact Nat.mod_lt _ bloomPositive
  have present := List.getElem?_eq_getElem inside
  refine ⟨_, present, ?_⟩
  generalize (link.header.bloomFilter 64 link.hashes)[link.header.bloomIndex 64
    (dynamicLoaderGNUHash name)] = word at present
  have readBloom : wordAt 8 link.hashSection
      (16 + 8 * ((dynamicLoaderGNUHash name).toNat / 64 % link.header.bloomSize.toNat)) =
      some word.toNat := by
    rw [hashSection_eq, bits]
    exact wordAt_bloom (.inr rfl) _ present
  have bucketInside := bucket_lt laid.positive (dynamicLoaderGNUHash name)
  have bucketInt : (dynamicLoaderGNUHash name % link.globals.numGnuBuckets).toInt =
      ((dynamicLoaderGNUHash name % link.globals.numGnuBuckets).toNat : ℤ) := by
    have buckets := laid.buckets
    exact BitVec.toInt_eq_toNat_of_lt (by omega)
  have readBucket := laid.read_bucket bucketInside
  rw [GNUHashTableHeader.bucketsAt, bits] at readBucket
  push_cast at readBucket
  have readNumBuckets : LoadedDynamicLibrary.word32At link.hashSection 0 =
      some link.globals.numGnuBuckets := read_header link 0 rfl
  have readSymoffset : LoadedDynamicLibrary.word32At link.hashSection 4 =
      some link.header.symoffset := read_header link 1 rfl
  have readBloomSize : LoadedDynamicLibrary.word32At link.hashSection 8 =
      some link.header.bloomSize := read_header link 2 rfl
  simp only [findSymbolByHash, Option.bind_eq_bind, readNumBuckets,
    readSymoffset, readBloomSize, Option.bind_some, if_neg bloomNonzero, readBloom,
    BitVec.ofNat_toNat, BitVec.setWidth_eq, if_neg bucketsNonzero, bucketInt]
  push_cast
  rw [readBucket, Option.bind_some, GNUHashTableHeader.chainsAt, GNUHashTableHeader.bucketsAt, bits]
  rfl

/-- The defined fixups are in the order of their buckets. -/
theorem bucket_le {place other : Nat} {first second : DynamicSymbolFixup}
    (firstThere : defined[place]? = some first) (secondThere : defined[other]? = some second)
    (before : place ≤ other) :
    first.bucket link.globals.numGnuBuckets ≤ second.bucket link.globals.numGnuBuckets := by
  obtain ⟨firstInside, rfl⟩ := List.getElem?_eq_some_iff.mp firstThere
  obtain ⟨secondInside, rfl⟩ := List.getElem?_eq_some_iff.mp secondThere
  rcases Nat.eq_or_lt_of_le before with rfl | less
  · exact le_rfl
  · exact List.pairwise_iff_getElem.mp laid.divided.ordered place other firstInside secondInside
      less

/-- The bucket of a fixup starts at a fixup of the same bucket, not after it. -/
theorem exists_bucket_first (present : defined[index]? = some fixup) :
    ∃ first, (link.hashes.findIdx? fun hash => (hash % link.globals.numGnuBuckets).toNat ==
        fixup.bucket link.globals.numGnuBuckets) = some first ∧ first ≤ index ∧
      ∀ place (other : DynamicSymbolFixup), first ≤ place → place ≤ index →
        defined[place]? = some other →
        other.bucket link.globals.numGnuBuckets = fixup.bucket link.globals.numGnuBuckets := by
  have length := laid.length_hashes
  have hashed : link.hashes[index]? = some fixup.hash := by
    rw [laid.hashes_eq, List.getElem?_map, present, Option.map_some]
  have isSome : (link.hashes.findIdx? fun hash => (hash % link.globals.numGnuBuckets).toNat ==
      fixup.bucket link.globals.numGnuBuckets).isSome := by
    rw [List.findIdx?_isSome, List.any_eq_true]
    exact ⟨_, List.mem_of_getElem? hashed, beq_self_eq_true _⟩
  obtain ⟨first, found⟩ := Option.isSome_iff_exists.mp isSome
  obtain ⟨firstInside, inBucket, earlier⟩ := List.findIdx?_eq_some_iff_getElem.mp found
  have firstLe : first ≤ index := by
    by_contra after
    obtain ⟨hashInside, hashEq⟩ := List.getElem?_eq_some_iff.mp hashed
    apply earlier index (by omega)
    rw [hashEq]
    exact beq_self_eq_true _
  refine ⟨first, found, firstLe, ?_⟩
  intro place other least most there
  have firstThere := List.getElem?_eq_getElem (show first < defined.length by omega)
  have firstBucket : defined[first].bucket link.globals.numGnuBuckets =
      fixup.bucket link.globals.numGnuBuckets := by
    have firstHash : link.hashes[first] = defined[first].hash := by
      apply Option.some.inj
      rw [← List.getElem?_eq_getElem firstInside, laid.hashes_eq, List.getElem?_map, firstThere,
        Option.map_some]
    rw [firstHash] at inBucket
    exact beq_iff_eq.mp inBucket
  apply le_antisymm (laid.bucket_le there present most)
  rw [← firstBucket]
  exact laid.bucket_le firstThere there least

section

variable (wide : link.output.is64Bit = true)
  (hasSections : ∀ fixup ∈ defined, link.HasSection (link.now fixup.symbol))
  (nameEnds : (0 : BitVec 8) ∉ name)

include wide hasSections nameEnds

/-- The symbol of a name is found through the hash section. -/
theorem findSymbolByHash_finds (present : defined[index]? = some fixup)
    (named : fixup.symbol.name = name) :
    link.library.findSymbolByHash link.hashSection name =
      some (some (link.firstDefined + index)) := by
  obtain ⟨word, bloom, result⟩ := laid.findSymbolByHash_eq wide name
  have inside := (List.getElem?_eq_some_iff.mp present).1
  have member := List.mem_of_getElem? present
  have few := laid.few
  rw [List.length_append] at few
  obtain ⟨_, _, _, _, hash⟩ := laid.exported_of_mem (List.mem_append_right undefined member)
  rw [named] at hash
  have hashed : dynamicLoaderGNUHash name ∈ link.hashes := by
    rw [laid.hashes_eq, ← hash]
    exact List.mem_map_of_mem member
  have bloomPositive : 0 < link.header.bloomSize.toNat :=
    bloomSize_pos link.wordBits_eq (by rw [laid.length_hashes]; omega)
  obtain ⟨filled, filledThere, bits⟩ :
      ∃ filled, (link.header.bloomFilter 64 link.hashes)[link.header.bloomIndex 64
          (dynamicLoaderGNUHash name)]? = some filled ∧ filled &&& _ = _ :=
    bloomFilter_of_mem bloomPositive hashed
  rw [bloom] at filledThere
  obtain rfl := Option.some.inj filledThere
  obtain ⟨first, found, firstLe, sameBucket⟩ := laid.exists_bucket_first present
  rw [DynamicSymbolFixup.bucket, hash] at found
  obtain ⟨start, -⟩ := laid.bucketStart_toNat found
  have enough := laid.length_defined_le
  rw [result, if_neg (not_not.mpr bits)]
  rw [if_neg (by rw [BitVec.lt_def, start, laid.symoffset_toNat]; omega), bucketStart, found]
  exact laid.walk_finds hasSections nameEnds present named firstLe sameBucket (by omega)

/-- A name without a symbol is not found through the hash section. -/
theorem findSymbolByHash_missing (absent : ∀ fixup ∈ defined, fixup.symbol.name ≠ name) :
    link.library.findSymbolByHash link.hashSection name = some none := by
  obtain ⟨word, -, result⟩ := laid.findSymbolByHash_eq wide name
  rw [result]
  split
  · rfl
  · simp only
    split
    · rfl
    · next notBefore =>
        rw [BitVec.lt_def, laid.symoffset_toNat] at notBefore
        cases found : link.hashes.findIdx? fun hash =>
            (hash % link.globals.numGnuBuckets).toNat ==
              (dynamicLoaderGNUHash name % link.globals.numGnuBuckets).toNat with
        | none =>
          rw [bucketStart, found, laid.divided.firstDefined] at notBefore
          exact absurd (Nat.succ_pos _) notBefore
        | some first =>
          have inside := (laid.bucketStart_toNat found).2
          have length := laid.length_hashes
          have enough := laid.length_defined_le
          rw [bucketStart, found]
          exact laid.walk_missing hasSections nameEnds absent (by omega) (by omega)

end

section Slowly

variable (sections : ∀ fixup ∈ undefined ++ defined,
    fixup.symbol.header.shndx ≠ 0 ↔ link.HasSection (link.now fixup.symbol))
  (nameEnds : (0 : BitVec 8) ∉ name)
include sections nameEnds

/-- The slow search passes over symbols that are undefined or have another name. -/
theorem passedOver (inside : index < link.written.dynsym.length)
    (other : ∀ place (fixup : DynamicSymbolFixup), index = place + 1 →
      (undefined ++ defined)[place]? = some fixup → fixup.symbol.header.shndx =
      0 ∨ fixup.symbol.name ≠ name) :
    PassedOver link.library name index := by
  cases index with
  | zero => exact ⟨_, laid.dynsym_zero, .inl rfl⟩
  | succ place =>
    rw [laid.length_dynsym] at inside
    have present := List.getElem?_eq_getElem (Nat.lt_of_succ_lt_succ inside)
    have member := List.mem_of_getElem? present
    refine ⟨_, laid.dynsym_succ present, ?_⟩
    rcases other place _ rfl present with isUndefined | otherName
    · left
      by_contra nonzero
      exact (sections _ member).mpr ((dynamicSymbol_shndx _ _).mp nonzero) isUndefined
    · right
      exact (laid.stringEquals_drop member nameEnds).trans
        (congrArg some (decide_eq_false otherName))

/-- The slow search finds the symbol of a name. -/
theorem findSymbolSlowly_finds (present : defined[index]? = some fixup)
    (named : fixup.symbol.name = name) :
    link.library.findSymbolSlowly name = some (some (link.firstDefined + index)) := by
  have first := laid.divided.firstDefined
  have member := List.mem_append_right undefined (List.mem_of_getElem? present)
  have placed : (undefined ++ defined)[undefined.length + index]? = some fixup := by
    rw [List.getElem?_append_right (by omega), Nat.add_sub_cancel_left, present]
  have placedInside := (List.getElem?_eq_some_iff.mp placed).1
  have inRange : link.firstDefined + index ∈ List.range link.written.dynsym.length := by
    rw [List.mem_range, laid.length_dynsym]
    omega
  obtain ⟨before, after, split⟩ := List.append_of_mem inRange
  have distinct := List.nodup_range (n := link.written.dynsym.length)
  rw [split] at distinct
  have isDefined : fixup.symbol.header.shndx ≠ 0 := by
    have kind := laid.divided.isDefined fixup (List.mem_of_getElem? present)
    rwa [DynamicSymbolFixup.isUndefined, beq_eq_false_iff_ne] at kind
  change link.library.findSlowlyAmong name (List.range link.written.dynsym.length) = _
  rw [split]
  apply findSlowlyAmong_finds _ (laid.dynsym_defined present)
    ((dynamicSymbol_shndx _ _).mpr ((sections _ member).mp isDefined))
  · exact (laid.stringEquals_drop member nameEnds).trans (congrArg some (decide_eq_true named))
  · intro earlier earlierMem
    have earlierInside : earlier ∈ List.range link.written.dynsym.length := by
      rw [split]
      exact List.mem_append_left _ earlierMem
    apply laid.passedOver sections nameEnds (List.mem_range.mp earlierInside)
    intro place other isPlace there
    right
    intro sameName
    have equal : ((undefined ++ defined).map (·.symbol.name))[place]? =
        ((undefined ++ defined).map (·.symbol.name))[undefined.length + index]? := by
      rw [List.getElem?_map, List.getElem?_map, there, placed, Option.map_some, Option.map_some,
        sameName, named]
    have placeInside := (List.getElem?_eq_some_iff.mp there).1
    have samePlace := (List.getElem?_inj (by rw [List.length_map]; exact placeInside)
      laid.names_distinct).mp equal
    have apart := (List.nodup_append.mp distinct).2.2 earlier earlierMem
      (link.firstDefined + index) List.mem_cons_self
    omega

/-- The slow search does not find a name without a defined symbol. -/
theorem findSymbolSlowly_missing (absent : ∀ fixup ∈ defined, fixup.symbol.name ≠ name) :
    link.library.findSymbolSlowly name = some none := by
  apply findSlowlyAmong_eq_none
  intro index member
  apply laid.passedOver sections nameEnds (List.mem_range.mp member)
  intro place fixup _ present
  rcases List.mem_append.mp (List.mem_of_getElem? present) with before | after
  · left
    exact beq_iff_eq.mp (laid.divided.isUndefined fixup before)
  · right
    exact absent fixup after

end Slowly

end LaidOut

/-- A written symbol has a name offset of 32 bits. -/
theorem name_lt_of_mem_foldl {output : OutputSections} {now : LinkerSymbol → LinkerSymbol}
    {fixups : List (DynamicSymbolFixup × Nat)} {before : DynamicSymbolTable}
    (small : ∀ entry ∈ before.dynsym, entry.name < 2 ^ 32) :
    ∀ entry ∈ (fixups.foldl (output.fixupSymbol now) before).dynsym, entry.name < 2 ^ 32 := by
  induction fixups generalizing before with
  | nil => exact small
  | cons fixup fixups ih =>
    apply ih
    intro entry member
    rcases List.mem_or_eq_of_mem_set member with old | rfl
    · exact small entry old
    · exact fixup.1.nameOffset.isLt

theorem name_lt_of_mem {entry : ELFSymbol} (member : entry ∈ link.written.dynsym) :
    entry.name < 2 ^ 32 := by
  apply name_lt_of_mem_foldl _ entry member
  intro null nullMem
  rw [List.eq_of_mem_replicate nullMem]
  decide

namespace LaidOut

variable {undefined defined : List DynamicSymbolFixup} (laid : link.LaidOut undefined defined)
include laid

/-- Every exported symbol has a place in the table. -/
theorem exists_place {earlier later : List LinkerSymbol} {symbol : LinkerSymbol}
    (split : link.globals.exported = earlier ++ symbol :: later) :
    ∃ place : Nat, ∃ fixup : DynamicSymbolFixup, (undefined ++ defined)[place]? = some fixup ∧
      fixup.symbol = symbol ∧ fixup.nameOffset.toNat = link.stringStart earlier := by
  have collected := exists_mem_fixupsFrom (0 :: link.strings).length earlier later symbol
  rw [← split] at collected
  obtain ⟨place, present⟩ := List.getElem?_of_mem (laid.divided.perm.mem_iff.mpr collected)
  refine ⟨place, _, present, rfl, ?_⟩
  exact Nat.mod_eq_of_lt (laid.representable _ _ _ split)

/-- The bucket of the name at a place among the defined symbols. -/
theorem bucketOf_nameAt {index : Nat} {fixup : DynamicSymbolFixup}
    (present : defined[index]? = some fixup) :
    link.bucketOf (link.nameAt (link.firstDefined + index)) =
      fixup.bucket link.globals.numGnuBuckets := by
  have placed : (undefined ++ defined)[undefined.length + index]? = some fixup := by
    rw [List.getElem?_append_right (by omega), Nat.add_sub_cancel_left, present]
  obtain ⟨_, _, _, _, hash⟩ := laid.exported_of_mem (List.mem_of_getElem? placed)
  rw [laid.divided.firstDefined, Nat.add_right_comm, laid.nameAt_succ placed, bucketOf,
    DynamicSymbolFixup.bucket, hash]
  rfl

/-- Both searches find the same, inside the tables. -/
theorem lookup (sections : ∀ fixup ∈ undefined ++ defined, fixup.symbol.header.shndx ≠ 0 ↔
      link.HasSection (link.now fixup.symbol)) {name : Name} (nameEnds : (0 : BitVec 8) ∉ name) :
    ∃ found, link.library.findSymbol name = some found ∧
      link.library.findSymbolSlowly name = some found := by
  have hasSections : ∀ fixup ∈ defined, link.HasSection (link.now fixup.symbol) := by
    intro fixup member
    have kind := laid.divided.isDefined fixup member
    rw [DynamicSymbolFixup.isUndefined, beq_eq_false_iff_ne] at kind
    exact (sections fixup (List.mem_append_right _ member)).mp kind
  have byHash : link.output.is64Bit = true →
      link.library.findSymbol name = link.library.findSymbolByHash link.hashSection name := by
    intro wide
    rw [findSymbol, library, if_pos wide]
  have slowly : link.output.is64Bit = false →
      link.library.findSymbol name = link.library.findSymbolSlowly name := by
    intro narrow
    rw [findSymbol, library, if_neg (ne_true_of_eq_false narrow)]
  by_cases present : ∃ fixup ∈ defined, fixup.symbol.name = name
  · obtain ⟨fixup, member, named⟩ := present
    obtain ⟨index, present⟩ := List.getElem?_of_mem member
    have found := laid.findSymbolSlowly_finds sections nameEnds present named
    refine ⟨_, ?_, found⟩
    cases width : link.output.is64Bit with
    | true =>
      rw [byHash width]
      exact laid.findSymbolByHash_finds width hasSections nameEnds present named
    | false => rw [slowly width, found]
  · have absent : ∀ fixup ∈ defined, fixup.symbol.name ≠ name :=
      fun fixup member named => present ⟨fixup, member, named⟩
    have missing := laid.findSymbolSlowly_missing sections nameEnds absent
    refine ⟨_, ?_, missing⟩
    cases width : link.output.is64Bit with
    | true =>
      rw [byHash width]
      exact laid.findSymbolByHash_missing width hasSections nameEnds absent
    | false => rw [slowly width, missing]

end LaidOut

/-- The parts of a table that is laid out, where the symbols have stayed as they were. -/
theorem LaidOut.correct {undefined defined : List DynamicSymbolFixup}
    (laid : link.LaidOut undefined defined) (settled : link.Settled) : link.Correct := by
  have sections : ∀ fixup ∈ undefined ++ defined,
      fixup.symbol.header.shndx ≠ 0 ↔ link.HasSection (link.now fixup.symbol) :=
    fun fixup member => settled.unchanged _ (laid.mem_exported member)
  constructor
  case lookup => exact fun name nameEnds => laid.lookup sections nameEnds
  case chainEnds => exact fun bucket inside => laid.chainEnds inside
  case divided =>
    intro index symbol positive read
    obtain ⟨place, rfl⟩ := Nat.exists_eq_succ_of_ne_zero positive.ne'
    have inside := (List.getElem?_eq_some_iff.mp read).1
    rw [laid.length_dynsym] at inside
    have present := List.getElem?_eq_getElem (Nat.lt_of_succ_lt_succ inside)
    rw [laid.dynsym_succ present] at read
    obtain rfl := Option.some.inj read
    rw [laid.symoffset_toNat, laid.firstDefined_le_iff present, dynamicSymbol_shndx]
    exact (sections _ (List.mem_of_getElem? present)).symm
  case bucketOrder =>
    intro first second after before inside
    rw [laid.symoffset_toNat] at after
    have firstDefined := laid.divided.firstDefined
    rw [laid.length_dynsym, List.length_append] at inside
    obtain ⟨firstPlace, rfl⟩ := Nat.exists_eq_add_of_le after
    obtain ⟨secondPlace, rfl⟩ := Nat.exists_eq_add_of_le (after.trans before)
    have firstThere := List.getElem?_eq_getElem (show firstPlace < defined.length by omega)
    have secondThere := List.getElem?_eq_getElem (show secondPlace < defined.length by omega)
    rw [laid.bucketOf_nameAt firstThere, laid.bucketOf_nameAt secondThere]
    exact laid.bucket_le firstThere secondThere (by omega)
  case indexed =>
    intro earlier symbol later split
    obtain ⟨place, fixup, present, rfl, offset⟩ := laid.exists_place split
    exact ⟨place + 1, Nat.succ_pos place, laid.dynamicIndex_eq present, _,
      laid.dynsym_succ present, offset, laid.nameAt_succ present⟩

/-- The table is correct exactly if the strings can be named and the symbols stay as they
were when it was built. -/
theorem correct_iff_settled (link : DynamicLink) : link.Correct ↔ link.Settled := by
  constructor
  · intro correct
    have representable : ∀ earlier symbol later,
        link.globals.exported = earlier ++ symbol :: later →
        link.stringStart earlier < 2 ^ 32 := by
      intro earlier symbol later split
      obtain ⟨index, -, -, entry, read, offset, -⟩ := correct.indexed earlier symbol later split
      rw [← offset]
      exact name_lt_of_mem (List.mem_of_getElem? read)
    obtain ⟨undefined, defined, laid⟩ := exists_laidOut representable
    refine ⟨representable, ?_⟩
    intro symbol exported
    obtain ⟨earlier, later, split⟩ := List.append_of_mem exported
    obtain ⟨place, fixup, present, rfl, -⟩ := laid.exists_place split
    have divided := correct.divided (place + 1) _ (Nat.succ_pos place) (laid.dynsym_succ present)
    rw [laid.symoffset_toNat, laid.firstDefined_le_iff present, dynamicSymbol_shndx] at divided
    exact divided.symm
  · intro settled
    obtain ⟨undefined, defined, laid⟩ := exists_laidOut settled.representable
    exact laid.correct settled

/-- A reference to `_end`, which no object defines. -/
def endReference : LinkerSymbol :=
  newLinkerSymbol { name := 1, info := 0x10, shndx := 0, value := 0, size := 0 } (some 0)
    (asciiName "_end")

/-- The global symbols of a program that refers to `_end`. -/
def endReferenced : GlobalSymbolTable :=
  GlobalSymbolTable.init.insertSymbol endReference (by decide +kernel) (by decide)

theorem endReferenced_exported : endReferenced.exported = [endReference] := by
  have inserted : endReferenced.symbols.Perm (endReference :: GlobalSymbolTable.init.symbols) :=
    HashTable.flatten_insert GlobalSymbolTable.init.nonempty
  have empty : GlobalSymbolTable.init.symbols = [] := List.flatten_replicate_nil
  rw [empty, List.perm_singleton] at inserted
  rw [GlobalSymbolTable.exported, inserted]
  rfl

/-- An executable that refers to `_end`: the table is built while the symbol is undefined, and
`InventSymbol` defines it before the symbols are written. -/
def lateEnd (is64Bit : Bool) : DynamicLink where
  globals := endReferenced
  strings := []
  sorted := [.null,
    { nameOffset := 1, hash := dynamicLoaderGNUHash (asciiName "_end"), symbol := endReference }]
  firstDefined := 2
  sorts := by
    rw [dynamicSymbols_eq, endReferenced_exported]
    apply SortDynamicSymbolTable.undefined
    decide
  now := LinkerSymbol.invent false 8 0x404040
  output := { is64Bit := is64Bit, indexOf := fun _ => 0, bssSectionIndex := 12 }
  dynstrPadding := [0, 0]
  hashPadding := [0, 0, 0, 0]

/-- The loader does not find `_end` through the hash section, though it is in the table. -/
theorem lateEnd_incorrect : ¬ (lateEnd true).Correct := by
  intro correct
  obtain ⟨found, byHash, slowly⟩ := correct.lookup (asciiName "_end") (by decide)
  have hashed : (lateEnd true).library.findSymbol (asciiName "_end") = some none := by
    decide +kernel
  have searched : (lateEnd true).library.findSymbolSlowly (asciiName "_end") = some (some 1) := by
    decide +kernel
  rw [hashed] at byHash
  rw [searched, ← byHash] at slowly
  exact absurd slowly (by decide)

end DynamicLink

end DaveCC.Linking
