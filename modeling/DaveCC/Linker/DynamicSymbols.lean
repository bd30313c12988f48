import DaveCC.Container.Qsort
import DaveCC.Container.ExchangeSort
import DaveCC.Linker.SectionNames

/-!
# The dynamic symbol table

How the linker collects its global symbols for the dynamic symbol table, divides and sorts
them, and later writes the symbols. The table is built before the addresses are known; by the
time it is written the symbols may have changed.
-/

namespace DaveCC.Linking

open DaveCC.Container

/-- A global symbol table: its names are C strings, none is there twice, and its objects are
counted. -/
structure GlobalSymbolTable where
  table : SymbolTable
  distinct : (table.entries.flatten.map LinkerSymbol.name).Nodup
  terminated : ∀ symbol ∈ table.entries.flatten, (0 : BitVec 8) ∉ symbol.name
  counted : table.objectCount = table.entries.flatten.length
  nonempty : table.entries ≠ []

/-- The table of `LinkerInit`. -/
def GlobalSymbolTable.init : GlobalSymbolTable where
  table := .init 1009
  distinct := by
    rw [HashTable.init, List.flatten_replicate_nil]
    exact .nil
  terminated symbol member := by
    rw [HashTable.init, List.flatten_replicate_nil] at member
    cases member
  counted := by
    rw [HashTable.init, List.flatten_replicate_nil]
    rfl
  nonempty := List.replicate_succ_ne_nil

/-- `LinkerInsertSymbol` for a symbol whose name is not in the table. -/
def GlobalSymbolTable.insertSymbol (globals : GlobalSymbolTable) (symbol : LinkerSymbol)
    (fresh : symbol.name ∉ globals.table.entries.flatten.map LinkerSymbol.name)
    (ends : (0 : BitVec 8) ∉ symbol.name) : GlobalSymbolTable where
  table := globals.table.insertSymbol symbol
  distinct := by
    apply ((HashTable.flatten_insert globals.nonempty).map LinkerSymbol.name).nodup_iff.mpr
    exact List.nodup_cons.mpr ⟨fresh, globals.distinct⟩
  terminated other member := by
    rcases List.mem_cons.mp ((HashTable.flatten_insert globals.nonempty).mem_iff.mp member) with
      rfl | present
    · exact ends
    · exact globals.terminated other present
  counted := by
    refine Eq.trans ?_ (HashTable.flatten_insert globals.nonempty).length_eq.symm
    rw [List.length_cons, ← globals.counted]
    rfl
  nonempty := by
    intro empty
    have length : (globals.table.insert LinkerSymbol.name linkerSymbolHash symbol).entries.length =
        globals.table.entries.length := HashTable.length_insert
    have emptied := length.symm.trans (congrArg List.length empty)
    exact globals.nonempty (List.length_eq_zero_iff.mp emptied)

/-- `InventSymbol`, for a symbol that the table has. -/
def LinkerSymbol.invent (buildingDso : Bool) (size address : Nat) (symbol : LinkerSymbol) :
    LinkerSymbol :=
  { symbol with
    defined := true
    header := { symbol.header with shndx := if buildingDso then 1 else shnAbs }
    size := size
    address := address }

/-- The symbols of a table in the order in which `HashTableTraverse` meets them. -/
def GlobalSymbolTable.symbols (globals : GlobalSymbolTable) : List LinkerSymbol :=
  globals.table.entries.flatten

/-- The symbols that are inside the linker: those without a name, and its own anchors. -/
def LinkerSymbol.isAnchor (symbol : LinkerSymbol) : Bool :=
  symbol.name.length == 0 ||
    (symbol.invented &&
      (symbol.name == asciiName "_DYNAMIC_" || symbol.name == asciiName "_GLOBAL_OFFSET_TABLE_"))

/-- The symbols that get a dynamic symbol. -/
def GlobalSymbolTable.exported (globals : GlobalSymbolTable) : List LinkerSymbol :=
  globals.symbols.filter fun symbol => !symbol.isAnchor

/-- `DynamicLoaderGNUHash`, whose characters are signed. -/
def dynamicLoaderGNUHash (name : Name) : BitVec 32 :=
  name.foldl (fun hash c => (hash <<< 5) + hash + c.signExtend 32) 5381

/-- `DynamicSymbolFixup`. The symbol is as it is when the table is built. -/
structure DynamicSymbolFixup where
  nameOffset : BitVec 32
  hash : BitVec 32
  symbol : LinkerSymbol
  deriving DecidableEq, Repr

def ELFSymbol.null : ELFSymbol where
  name := 0
  info := 0
  shndx := 0
  value := 0
  size := 0

/-- The fixup of the null symbol, whose symbol nobody looks at. -/
def DynamicSymbolFixup.null : DynamicSymbolFixup where
  nameOffset := 0
  hash := 0
  symbol := newLinkerSymbol .null none []

structure DynamicSymbolTableInfo where
  dynstr : List (BitVec 8)
  fixups : List DynamicSymbolFixup

/-- A name with its end. -/
def terminated (name : Name) : List (BitVec 8) :=
  name ++ [0]

/-- One symbol of `AddSymbolListToDynamicSymbolTable`. -/
def DynamicSymbolTableInfo.addSymbol (info : DynamicSymbolTableInfo) (symbol : LinkerSymbol) :
    DynamicSymbolTableInfo :=
  if symbol.isAnchor then info
  else
    { dynstr := info.dynstr ++ terminated symbol.name
      fixups := info.fixups ++
        [{ nameOffset := BitVec.ofNat 32 info.dynstr.length
           hash := dynamicLoaderGNUHash symbol.name
           symbol := symbol }] }

/-- `AddSymbolListToDynamicSymbolTable`. -/
def DynamicSymbolTableInfo.addSymbolList (info : DynamicSymbolTableInfo)
    (bucket : List LinkerSymbol) : DynamicSymbolTableInfo :=
  bucket.foldl addSymbol info

/-- The traversal in `AddDynamicSymbolTable`. The strings are those of
`InsertDynamicStrings`. -/
def GlobalSymbolTable.dynamicSymbols (globals : GlobalSymbolTable)
    (strings : List (BitVec 8)) : DynamicSymbolTableInfo :=
  globals.table.entries.foldl DynamicSymbolTableInfo.addSymbolList
    { dynstr := 0 :: strings, fixups := [.null] }

def GlobalSymbolTable.numGnuBuckets (globals : GlobalSymbolTable) : BitVec 32 :=
  let buckets := (BitVec.ofNat 32 globals.table.objectCount).sdiv 4
  if buckets = 0 then 1 else buckets

def compareSymbolFixup (numGnuBuckets : BitVec 32) (first second : DynamicSymbolFixup) : ℤ :=
  (first.hash % numGnuBuckets - second.hash % numGnuBuckets).toInt

def DynamicSymbolFixup.isUndefined (fixup : DynamicSymbolFixup) : Bool :=
  fixup.symbol.header.shndx == 0

/-- `SortDynamicSymbolTable`: the fixups that it may leave, and the index of the first
defined symbol that it returns. -/
inductive SortDynamicSymbolTable (numGnuBuckets : BitVec 32) (fixups : List DynamicSymbolFixup) :
    List DynamicSymbolFixup → Nat → Prop where
  | undefined : (∀ fixup ∈ fixups.tail, fixup.isUndefined = true) →
      SortDynamicSymbolTable numGnuBuckets fixups fixups fixups.length
  | sorted {index boundary : Nat} {divided sorted : List DynamicSymbolFixup} :
      fixups.tail.findIdx? (fun fixup => !fixup.isUndefined) = some index →
      partitionFrom DynamicSymbolFixup.isUndefined fixups (index + 1) = (divided, boundary) →
      Qsorted (compareSymbolFixup numGnuBuckets) (divided.drop boundary) sorted →
      SortDynamicSymbolTable numGnuBuckets fixups (divided.take boundary ++ sorted) boundary

/-- Where the output is known when the symbols are written. -/
structure OutputSections where
  is64Bit : Bool
  /-- `output_section_index`. -/
  indexOf : SectionId → BitVec 32
  bssSectionIndex : BitVec 32

/-- The section index in `DynamicLinkerFixupDynamicSymbolTable`. -/
def OutputSections.sectionIndex (output : OutputSections) (symbol : LinkerSymbol) : BitVec 32 :=
  if !symbol.defined || symbol.fromDynamicLibrary then 0
  else
    match symbol.definingSection with
    | some definingSection => output.indexOf definingSection
    | none =>
      if symbol.header.shndx = shnAbs || (symbol.invented && symbol.header.shndx != shnCom) then
        symbol.header.shndx.zeroExtend 32
      else output.bssSectionIndex

/-- The symbol that is copied into the table: an ELF32 symbol has smaller fields. -/
def OutputSections.dynamicSymbol (output : OutputSections) (nameOffset : BitVec 32)
    (symbol : LinkerSymbol) : ELFSymbol where
  name := nameOffset.toNat
  info := (symbol.header.info &&& 0xf) ||| (symbol.header.info >>> 4 <<< 4)
  shndx := (output.sectionIndex symbol).truncate 16
  value := symbol.address % if output.is64Bit then 2 ^ 64 else 2 ^ 32
  size := symbol.header.size % if output.is64Bit then 2 ^ 64 else 2 ^ 32

/-- What `DynamicLinkerFixupDynamicSymbolTable` writes: the table, and the dynamic index that
it puts into the symbol of a name. -/
structure DynamicSymbolTable where
  dynsym : List ELFSymbol
  dynamicIndex : Name → ℤ

/-- One round of `DynamicLinkerFixupDynamicSymbolTable`. The symbols are as they are by
now. -/
def OutputSections.fixupSymbol (output : OutputSections) (now : LinkerSymbol → LinkerSymbol)
    (written : DynamicSymbolTable) (fixup : DynamicSymbolFixup × Nat) : DynamicSymbolTable where
  dynsym := written.dynsym.set fixup.2
    (output.dynamicSymbol fixup.1.nameOffset (now fixup.1.symbol))
  dynamicIndex := Function.update written.dynamicIndex fixup.1.symbol.name
    (BitVec.ofNat 32 fixup.2).toInt

/-- `DynamicLinkerFixupDynamicSymbolTable`. -/
def OutputSections.fixupDynamicSymbolTable (output : OutputSections)
    (now : LinkerSymbol → LinkerSymbol) (fixups : List DynamicSymbolFixup) : DynamicSymbolTable :=
  (fixups.tail.zipIdx 1).foldl (output.fixupSymbol now)
    { dynsym := List.replicate fixups.length .null, dynamicIndex := fun _ => -1 }

end DaveCC.Linking
