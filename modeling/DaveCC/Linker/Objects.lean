import DaveCC.Container.HashTable
import Mathlib.Data.BitVec

/-!
# The linker's objects

Symbols, sections, relocations and object files as the linker holds them, and the link
itself. A section is named by its file and its place in the file.
-/

namespace DaveCC.Linking

open DaveCC.Container

/-- A C string without its end. -/
abbrev Name := List (BitVec 8)

/-- The bytes before the first zero. -/
def cString (bytes : List (BitVec 8)) : Name :=
  bytes.takeWhile (· != 0)

/-- The place of an object file among `linker->files`. -/
abbrev FileId := Nat

structure SectionId where
  file : FileId
  index : Nat
  deriving DecidableEq, Repr

/-- `ELFSymbol`, as far as the linker reads it. -/
structure ELFSymbol where
  name : Nat
  info : BitVec 8
  shndx : BitVec 16
  value : Nat
  size : Nat
  deriving DecidableEq, Repr

def stbLocal : BitVec 8 := 0

def stbGlobal : BitVec 8 := 1

def stbWeak : BitVec 8 := 2

def shnLoreserve : BitVec 16 := 0xff00

def shnAbs : BitVec 16 := 0xfff1

def shnCom : BitVec 16 := 0xfff2

/-- `ELF_ST_BIND`. -/
def ELFSymbol.binding (symbol : ELFSymbol) : BitVec 8 :=
  symbol.info >>> 4

structure LinkerSymbol where
  header : ELFSymbol
  name : Name
  defined : Bool
  fromDynamicLibrary : Bool
  invented : Bool
  definingSection : Option SectionId
  file : Option FileId
  address : Nat
  size : Nat
  deriving DecidableEq, Repr

/-- `LinkerSymbolIsWeak`. -/
def LinkerSymbol.isWeak (symbol : LinkerSymbol) : Bool :=
  symbol.header.binding == stbWeak

/-- `LinkerSymbolHash`, whose characters are signed. -/
def linkerSymbolHash (name : Name) : Nat :=
  (name.foldl (fun (hash : BitVec 32) c => (hash <<< 5) + hash + c.signExtend 32) 5381).toNat

abbrev SymbolTable := HashTable LinkerSymbol

/-- `LinkerFindSymbol`. -/
def SymbolTable.find (table : SymbolTable) (name : Name) : Option LinkerSymbol :=
  table.search LinkerSymbol.name linkerSymbolHash name

/-- `LinkerInsertSymbol`. -/
def SymbolTable.insertSymbol (table : SymbolTable) (symbol : LinkerSymbol) : SymbolTable :=
  table.insert LinkerSymbol.name linkerSymbolHash symbol

/-- A change of the symbol that is found under a name. -/
def SymbolTable.update (table : SymbolTable) (name : Name)
    (change : LinkerSymbol → LinkerSymbol) : SymbolTable :=
  table.modify LinkerSymbol.name linkerSymbolHash name change

/-! ## Files -/

/-- `ELFReaderSection` with what is used of its header. -/
structure ELFReaderSection where
  name : Name
  type : BitVec 32
  flags : BitVec 64
  addralign : Nat
  size : Nat
  discarded : Bool
  gcRefs : List SectionId
  deriving DecidableEq, Repr

structure Relocation where
  symbolName : Name
  symbol : Option LinkerSymbol
  symbolSection : Option SectionId
  patched : Option SectionId
  deriving DecidableEq, Repr

/-- A symbol in a list of common symbols: a global one, or a local one by its place among
the symbols read. -/
inductive CommonSymbol where
  | global (name : Name)
  | local (symbol : ELFSymbol) (name : Name)
  deriving DecidableEq, Repr

structure ObjectFile where
  sections : List ELFReaderSection
  relocations : List Relocation
  localSymbolTable : SymbolTable
  commonSymbols : List CommonSymbol

def ObjectFile.empty : ObjectFile where
  sections := []
  relocations := []
  localSymbolTable := .init 111
  commonSymbols := []

/-- What `LinkerError` prints: a file, a format and the name that goes into it. -/
structure LinkerError where
  file : Option FileId
  format : String
  argument : Name
  deriving DecidableEq, Repr

structure Linker where
  files : List ObjectFile
  globalSymbolTable : SymbolTable
  errors : List LinkerError

namespace Linker

def file (linker : Linker) (file : FileId) : ObjectFile :=
  linker.files.getD file .empty

def updateFile (file : FileId) (change : ObjectFile → ObjectFile) (linker : Linker) : Linker :=
  { linker with files := linker.files.modify file change }

def addError (file : Option FileId) (format : String) (argument : Name) (linker : Linker) :
    Linker :=
  { linker with errors := linker.errors ++ [⟨file, format, argument⟩] }

/-- `linker->global_symbol_table` of `LinkerInit`, without files. -/
def init : Linker where
  files := []
  globalSymbolTable := .init 1009
  errors := []

end Linker

end DaveCC.Linking

/-!
## Reading symbols

`LinkerReadSymbol` of `linker_symbols.c` with what it calls.
-/

namespace DaveCC.Linking

open DaveCC.Container

/-- A string table section: the size in its header and its bytes. -/
structure StringTable where
  size : Nat
  contents : List (BitVec 8)

def StringTable.nameOf (strtab : StringTable) (symbol : ELFSymbol) : Name :=
  cString (strtab.contents.drop symbol.name)

/-- `NewLinkerSymbol`, with its name. -/
def newLinkerSymbol (elfSym : ELFSymbol) (file : Option FileId) (name : Name) : LinkerSymbol where
  header := elfSym
  name := name
  defined := false
  fromDynamicLibrary := false
  invented := false
  definingSection := none
  file := file
  address := 0
  size := elfSym.size

/-- The section that `AssignSymbolSectionIndex` gives a symbol that has none. -/
def symbolSection (file : FileId) (elfSym : ELFSymbol) : Option SectionId :=
  if elfSym.shndx ≠ 0 ∧ elfSym.shndx < shnLoreserve then some ⟨file, elfSym.shndx.toNat⟩ else none

/-- The list of common symbols after `AssignSymbolSectionIndex`. -/
def assignCommon (elfSym : ELFSymbol) (common : CommonSymbol) (file : ObjectFile) : ObjectFile :=
  if elfSym.shndx = shnCom then { file with commonSymbols := file.commonSymbols ++ [common] }
  else file

def readLocalSymbol (name : Name) (file : FileId) (elfSym : ELFSymbol) (linker : Linker) :
    Linker :=
  let symbol :=
    { newLinkerSymbol elfSym (some file) name with
      definingSection := symbolSection file elfSym, defined := true, address := elfSym.value }
  linker.updateFile file fun object =>
    let object := assignCommon elfSym (.local elfSym name) object
    { object with localSymbolTable := object.localSymbolTable.insertSymbol symbol }

/-- What a definition makes of a symbol. -/
def LinkerSymbol.define (file : FileId) (elfSym : ELFSymbol) (symbol : LinkerSymbol) :
    LinkerSymbol :=
  { symbol with
    definingSection := symbolSection file elfSym, header := elfSym, address := elfSym.value
    defined := true, size := elfSym.size, file := some file }

/-- What `RedefineSymbol` does with the symbol it is given. -/
inductive Redefinition where
  | keep
  | change (symbol : LinkerSymbol)
  /-- The symbol gets its section and becomes a definition. -/
  | define
  | multiple

/-- The branches of `RedefineSymbol`. -/
def redefinition (symbol : LinkerSymbol) (file : FileId) (elfSym : ELFSymbol) : Redefinition :=
  let newIsWeak := elfSym.binding == stbWeak
  if elfSym.shndx ≠ 0 then
    if symbol.defined then
      if symbol.header.shndx = shnCom ∧ elfSym.shndx = shnCom then
        if symbol.size < elfSym.size then .change { symbol with size := elfSym.size } else .keep
      else if symbol.isWeak && newIsWeak then .keep
      else if !symbol.isWeak && newIsWeak then .keep
      else if symbol.isWeak && !newIsWeak then .define
      else .multiple
    else .define
  else if !symbol.defined && symbol.isWeak && !newIsWeak then
    .change { symbol with header := elfSym, size := elfSym.size, file := some file }
  else .keep

def redefineSymbol (symbol : LinkerSymbol) (file : FileId) (elfSym : ELFSymbol)
    (linker : Linker) : Linker :=
  let update (changed : LinkerSymbol) : Linker :=
    { linker with
      globalSymbolTable := linker.globalSymbolTable.update symbol.name fun _ => changed }
  match redefinition symbol file elfSym with
  | .keep => linker
  | .change changed => update changed
  | .define =>
    (update (symbol.define file elfSym)).updateFile file (assignCommon elfSym (.global symbol.name))
  | .multiple => linker.addError (some file) "Multiple definition of symbol %s" symbol.name

def linkerReadSymbol (file : FileId) (strtab : StringTable) (elfSym : ELFSymbol)
    (linker : Linker) : Linker :=
  if strtab.size < elfSym.name then linker.addError (some file) "Corrupt symbol name" []
  else
    let name := strtab.nameOf elfSym
    if name = [] then linker
    else if elfSym.binding = stbLocal then readLocalSymbol name file elfSym linker
    else
      match linker.globalSymbolTable.find name with
      | some symbol => redefineSymbol symbol file elfSym linker
      | none =>
        let symbol :=
          { newLinkerSymbol elfSym (some file) name with
            defined := elfSym.shndx != 0, address := elfSym.value
            definingSection := symbolSection file elfSym }
        { linker with globalSymbolTable := linker.globalSymbolTable.insertSymbol symbol }.updateFile
          file (assignCommon elfSym (.global name))

end DaveCC.Linking
