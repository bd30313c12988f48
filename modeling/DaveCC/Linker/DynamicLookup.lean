import DaveCC.Linker.DynamicSymbolOrder
import DaveCC.Linker.GnuHash

/-!
# Looking dynamic symbols up

How the loader finds a dynamic symbol by its name, through the hash section or one symbol
after the other, and when both find the same in what the linker has written. A read outside
the tables gives no result at all.
-/

namespace DaveCC.Linking

open DaveCC.Arith DaveCC.Container

/-- `LoadedDynamicLibrary`, as far as symbols are found in it. The hash section starts with
its header. -/
structure LoadedDynamicLibrary where
  gnuHash : Option (List (BitVec 8))
  dynsym : List ELFSymbol
  dynstr : List (BitVec 8)
  numDynamicSymbols : Nat

/-- Whether `strcmp` finds a string equal to a name. -/
def stringEquals : List (BitVec 8) → Name → Option Bool
  | [], _ => none
  | byte :: _, [] => some (byte == 0)
  | byte :: bytes, c :: name => if byte = c then stringEquals bytes name else some false

namespace LoadedDynamicLibrary

variable (library : LoadedDynamicLibrary)

/-- The rounds of `FindSymbolSlowly`. -/
def findSlowlyAmong (name : Name) : List Nat → Option (Option Nat)
  | [] => some none
  | index :: indices => do
      let symbol ← library.dynsym[index]?
      if symbol.shndx = 0 then findSlowlyAmong name indices
      else
        let same ← stringEquals (library.dynstr.drop symbol.name) name
        if same then some (some index) else findSlowlyAmong name indices

/-- `FindSymbolSlowly`: the index of the symbol that is found. -/
def findSymbolSlowly (name : Name) : Option (Option Nat) :=
  library.findSlowlyAmong name (List.range library.numDynamicSymbols)

/-- An element of the symbol table at an `int`. -/
def symbolAt (index : BitVec 32) : Option ELFSymbol :=
  if 0 ≤ index.toInt then library.dynsym[index.toInt.toNat]? else none

/-- A 32-bit word of the hash section at a byte offset. -/
def word32At (table : List (BitVec 8)) (offset : ℤ) : Option (BitVec 32) :=
  if 0 ≤ offset then (wordAt 4 table offset.toNat).map (BitVec.ofNat 32) else none

/-- Whether a symbol is the one that is looked for: the strings are compared only where the
chain entry has the top 31 bits of the hash. -/
def isWanted (hash : BitVec 32) (name : Name) (symbol : ELFSymbol) (chainHash : BitVec 32) :
    Option Bool :=
  if chainHash ||| 1 = hash ||| 1 then stringEquals (library.dynstr.drop symbol.name) name
  else some false

/-- The walk along a chain in `LoadedDynamicLibraryFindSymbol`. Every step reads another word
of the table, so that the walk is over after as many steps. -/
def walkChain (table : List (BitVec 8)) (chainsAt : Nat) (symoffset hash : BitVec 32)
    (name : Name) : Nat → BitVec 32 → Option (Option Nat)
  | 0, _ => none
  | steps + 1, symbolIndex => do
      let symbol ← library.symbolAt symbolIndex
      let chainHash ← word32At table (chainsAt + 4 * (symbolIndex - symoffset).toNat)
      let same ← library.isWanted hash name symbol chainHash
      if same then some (if symbol.shndx = 0 then none else some symbolIndex.toNat)
      else if chainHash &&& 1 ≠ 0 then some none
      else walkChain table chainsAt symoffset hash name steps (symbolIndex + 1)

/-- `LoadedDynamicLibraryFindSymbol` with the hash section. -/
def findSymbolByHash (table : List (BitVec 8)) (name : Name) : Option (Option Nat) := do
  let numBuckets ← word32At table 0
  let symoffset ← word32At table 4
  let bloomSize ← word32At table 8
  let hash := dynamicLoaderGNUHash name
  if bloomSize = 0 then none
  else
    let word ← wordAt 8 table (16 + 8 * (hash.toNat / 64 % bloomSize.toNat))
    let bits := bloomBits 64 hash
    if BitVec.ofNat 64 word &&& bits ≠ bits then some none
    else if numBuckets = 0 then none
    else
      let bucketsAt := 16 + 8 * bloomSize.toNat
      let symbolIndex ← word32At table (bucketsAt + 4 * (hash % numBuckets).toInt)
      if symbolIndex < symoffset then some none
      else
        library.walkChain table (bucketsAt + 4 * numBuckets.toNat) symoffset hash name
          table.length symbolIndex

/-- `LoadedDynamicLibraryFindSymbol`. -/
def findSymbol (name : Name) : Option (Option Nat) :=
  match library.gnuHash with
  | none => library.findSymbolSlowly name
  | some table => library.findSymbolByHash table name

end LoadedDynamicLibrary

/-- A table that the linker has built and written: the global symbols, the outcome of the
sort, the symbols by the time they are written, and what the ends of the buffers hold. -/
structure DynamicLink where
  globals : GlobalSymbolTable
  strings : List (BitVec 8)
  sorted : List DynamicSymbolFixup
  firstDefined : Nat
  sorts : SortDynamicSymbolTable globals.numGnuBuckets (globals.dynamicSymbols strings).fixups
    sorted firstDefined
  now : LinkerSymbol → LinkerSymbol
  output : OutputSections
  dynstrPadding : List (BitVec 8)
  hashPadding : List (BitVec 8)

namespace DynamicLink

variable (link : DynamicLink)

def wordBits : Nat :=
  if link.output.is64Bit then 64 else 32

/-- The hashes of the symbols from the first defined one on. -/
def hashes : List (BitVec 32) :=
  (link.sorted.drop link.firstDefined).map DynamicSymbolFixup.hash

def header : GNUHashTableHeader :=
  gnuHashTableHeader link.wordBits link.globals.numGnuBuckets
    (link.firstDefined + link.hashes.length) link.firstDefined

/-- The contents of `.gnu_hash`. -/
def hashSection : List (BitVec 8) :=
  createGNUHashTable link.wordBits link.globals.numGnuBuckets link.firstDefined link.hashes ++
    link.hashPadding

/-- The contents of `.dynstr`. -/
def dynstr : List (BitVec 8) :=
  (link.globals.dynamicSymbols link.strings).dynstr ++ link.dynstrPadding

/-- What `DynamicLinkerFixupDynamicSymbolTable` writes. -/
def written : DynamicSymbolTable :=
  link.output.fixupDynamicSymbolTable link.now link.sorted

/-- The library as the loader sees it: it does not use the hash section of a 32-bit file. -/
def library : LoadedDynamicLibrary where
  gnuHash := if link.output.is64Bit then some link.hashSection else none
  dynsym := link.written.dynsym
  dynstr := link.dynstr
  numDynamicSymbols := link.written.dynsym.length

/-- The name of the symbol at an index. -/
def nameAt (index : Nat) : Name :=
  cString (link.dynstr.drop (link.written.dynsym.getD index .null).name)

/-- The bucket of a name. -/
def bucketOf (name : Name) : Nat :=
  (dynamicLoaderGNUHash name % link.header.numBuckets).toNat

/-- A walk along the chain of a bucket ends inside the table. -/
def ChainEnds (bucket : Nat) : Prop :=
  ∃ start,
    LoadedDynamicLibrary.word32At link.hashSection
        (link.header.bucketsAt link.wordBits + 4 * bucket : Nat) = some start ∧
      (start < link.header.symoffset ∨
        ∃ last, start.toNat ≤ last ∧ last < link.written.dynsym.length ∧
          ∀ index, start.toNat ≤ index → index ≤ last →
            ∃ entry,
              LoadedDynamicLibrary.word32At link.hashSection
                  (link.header.chainsAt link.wordBits +
                    4 * (index - link.header.symoffset.toNat) : Nat) = some entry ∧
                (entry &&& 1 ≠ 0 ↔ index = last))

/-- Where the string of an exported symbol starts: the strings of the symbols before it are
already there. -/
def stringStart (earlier : List LinkerSymbol) : Nat :=
  (0 :: link.strings).length + (stringsOf earlier).length

/-- What the dynamic symbol table and the hash section owe to the loader. -/
structure Correct : Prop where
  lookup : ∀ name, (0 : BitVec 8) ∉ name →
    ∃ found, link.library.findSymbol name = some found ∧
      link.library.findSymbolSlowly name = some found
  chainEnds : ∀ bucket, bucket < link.header.numBuckets.toNat → link.ChainEnds bucket
  divided : ∀ index symbol, 0 < index → link.written.dynsym[index]? = some symbol →
    (symbol.shndx ≠ 0 ↔ link.header.symoffset.toNat ≤ index)
  bucketOrder : ∀ first second, link.header.symoffset.toNat ≤ first → first ≤ second →
    second < link.written.dynsym.length →
    link.bucketOf (link.nameAt first) ≤ link.bucketOf (link.nameAt second)
  indexed : ∀ earlier symbol later, link.globals.exported = earlier ++ symbol :: later →
    ∃ index : Nat, 0 < index ∧ link.written.dynamicIndex symbol.name = index ∧
      ∃ entry, link.written.dynsym[index]? = some entry ∧
        entry.name = link.stringStart earlier ∧ link.nameAt index = symbol.name

/-- The symbol is defined here and has a section index that a dynamic symbol can show. -/
def HasSection (symbol : LinkerSymbol) : Prop :=
  symbol.defined = true ∧ symbol.fromDynamicLibrary = false ∧
    match symbol.definingSection with
    | some definingSection => (link.output.indexOf definingSection).truncate 16 ≠ 0#16
    | none =>
      if symbol.header.shndx = shnAbs ∨ (symbol.invented = true ∧ symbol.header.shndx ≠ shnCom)
      then symbol.header.shndx ≠ 0
      else link.output.bssSectionIndex.truncate 16 ≠ 0#16

/-- The strings can be named, and a symbol is defined when it is written exactly if it was
when the table was built. -/
structure Settled : Prop where
  representable : ∀ earlier symbol later, link.globals.exported = earlier ++ symbol :: later →
    link.stringStart earlier < 2 ^ 32
  unchanged : ∀ symbol ∈ link.globals.exported,
    symbol.header.shndx ≠ 0 ↔ link.HasSection (link.now symbol)

end DynamicLink

end DaveCC.Linking
