import DaveCC.Linker.Objects
import Mathlib.Order.Bounds.Basic

/-!
# The rules of symbol resolution

The occurrences of one global name among the symbols that are read, what the rules make of
them whatever their order, and what the linker makes of them.
-/

namespace DaveCC.Linking

open DaveCC.Container

/-- A global symbol that a file mentions. A common symbol is not weak. -/
structure Occurrence where
  file : FileId
  symbol : ELFSymbol
  isGlobal : symbol.binding ≠ stbLocal
  commonIsStrong : symbol.shndx = shnCom → symbol.binding ≠ stbWeak
  deriving DecidableEq

namespace Occurrence

def isDefinition (occurrence : Occurrence) : Bool :=
  occurrence.symbol.shndx != 0

def isWeak (occurrence : Occurrence) : Bool :=
  occurrence.symbol.binding == stbWeak

def isCommon (occurrence : Occurrence) : Bool :=
  occurrence.symbol.shndx == shnCom

/-- A strong definition or a common symbol. -/
def isFirm (occurrence : Occurrence) : Bool :=
  occurrence.isDefinition && !occurrence.isWeak

def isStrong (occurrence : Occurrence) : Bool :=
  occurrence.isFirm && !occurrence.isCommon

def isWeakDefinition (occurrence : Occurrence) : Bool :=
  occurrence.isDefinition && occurrence.isWeak

def isStrongReference (occurrence : Occurrence) : Bool :=
  !occurrence.isDefinition && !occurrence.isWeak

variable {occurrence : Occurrence}

theorem isFirm_of_isCommon (common : occurrence.isCommon = true) : occurrence.isFirm = true := by
  have isCom : occurrence.symbol.shndx = shnCom := beq_iff_eq.mp common
  have definition : occurrence.isDefinition = true := by
    rw [isDefinition, isCom]
    rfl
  have strong : occurrence.isWeak = false := beq_eq_false_iff_ne.mpr (occurrence.commonIsStrong isCom)
  rw [isFirm, definition, strong]
  rfl

theorem isFirm_of_isStrong (strong : occurrence.isStrong = true) : occurrence.isFirm = true :=
  (Bool.and_eq_true_iff.mp strong).1

theorem isCommon_of_isStrong (strong : occurrence.isStrong = true) : occurrence.isCommon = false :=
  (Bool.not_eq_true' _).mp (Bool.and_eq_true_iff.mp strong).2

theorem isFirm_of_isWeakDefinition (weak : occurrence.isWeakDefinition = true) :
    occurrence.isFirm = false := by
  rw [isFirm, (Bool.and_eq_true_iff.mp weak).2]
  exact Bool.and_false _

theorem isFirm_of_not_isDefinition (reference : occurrence.isDefinition = false) :
    occurrence.isFirm = false := by
  rw [isFirm, reference]
  rfl

theorem isWeakDefinition_of_not_isDefinition (reference : occurrence.isDefinition = false) :
    occurrence.isWeakDefinition = false := by
  rw [isWeakDefinition, reference]
  rfl

theorem isCommon_of_not_isFirm (other : occurrence.isFirm = false) :
    occurrence.isCommon = false := by
  apply Bool.eq_false_of_not_eq_true
  intro common
  exact Bool.false_ne_true (other.symm.trans (isFirm_of_isCommon common))

theorem isStrong_of_not_isFirm (other : occurrence.isFirm = false) :
    occurrence.isStrong = false := by
  rw [isStrong, other]
  rfl

end Occurrence

/-- A symbol that an object file has in its table, with the string table of its name. -/
structure SymbolRead where
  file : FileId
  strtab : StringTable
  symbol : ELFSymbol
  commonIsStrong : symbol.shndx = shnCom → symbol.binding ≠ stbWeak

/-- The occurrence of a global name that is read. -/
def SymbolRead.occurrence? (name : Name) (read : SymbolRead) : Option Occurrence :=
  if global : read.symbol.name ≤ read.strtab.size ∧ read.strtab.nameOf read.symbol = name ∧
      name ≠ [] ∧ read.symbol.binding ≠ stbLocal then
    some ⟨read.file, read.symbol, global.2.2.2, read.commonIsStrong⟩
  else none

def occurrencesOf (name : Name) (reads : List SymbolRead) : List Occurrence :=
  reads.filterMap (SymbolRead.occurrence? name)

/-- Every symbol is read in turn. -/
def Linker.readAll (reads : List SymbolRead) (linker : Linker) : Linker :=
  reads.foldl (fun linker read => linkerReadSymbol read.file read.strtab read.symbol linker) linker

/-- A link before any symbol is read. -/
def Linker.start (files : List ObjectFile) : Linker :=
  { Linker.init with files := files }

/-- The symbol is what a definition makes of it. -/
structure LinkerSymbol.DefinedBy (symbol : LinkerSymbol) (occurrence : Occurrence) : Prop where
  defined : symbol.defined = true
  header : symbol.header = occurrence.symbol
  file : symbol.file = some occurrence.file
  definingSection : symbol.definingSection = symbolSection occurrence.file occurrence.symbol
  address : symbol.address = occurrence.symbol.value
  size : symbol.size = occurrence.symbol.size

/-- The sizes of common symbols, or their alignments. -/
def commonsOf (field : ELFSymbol → Nat) (order : List Occurrence) : Set Nat :=
  { value | ∃ occurrence ∈ order, occurrence.isCommon = true ∧ field occurrence.symbol = value }

/-- The definition that survives: a strong one, else a common one of the greatest size and
alignment, else the first weak one. -/
def Survives (order : List Occurrence) (symbol : LinkerSymbol) : Prop :=
  if order.any Occurrence.isStrong then
    ∃ occurrence ∈ order, occurrence.isStrong = true ∧ symbol.DefinedBy occurrence
  else if order.any Occurrence.isCommon then
    symbol.defined = true ∧ symbol.header.shndx = shnCom ∧
      IsGreatest (commonsOf ELFSymbol.size order) symbol.size ∧
      IsGreatest (commonsOf ELFSymbol.value order) symbol.header.value
  else
    match order.find? Occurrence.isWeakDefinition with
    | some occurrence => symbol.DefinedBy occurrence
    | none =>
      symbol.defined = false ∧
        (symbol.isWeak = false ↔ order.any Occurrence.isStrongReference = true)

def duplicateFormat : String := "Multiple definition of symbol %s"

/-- A duplicate definition of a name has been reported. -/
def Linker.reports (name : Name) (linker : Linker) : Bool :=
  linker.errors.any fun error => error.format == duplicateFormat && error.argument == name

/-- The rules for one order of the occurrences. -/
structure Resolves (order : List Occurrence) (entry : Option LinkerSymbol) (reported : Bool) :
    Prop where
  mentioned : entry.isSome = !order.isEmpty
  survives : ∀ symbol, entry = some symbol → Survives order symbol
  reports : reported = true ↔ 2 ≤ order.countP Occurrence.isStrong

/-- What becomes of a name, apart from which weak definition comes first. -/
inductive Resolution where
  | unmentioned | duplicate
  | strong (file : Option FileId) (header : ELFSymbol)
  | common (size alignment : Nat)
  | weak
  | undefined (isWeak : Bool)
  deriving DecidableEq

def Linker.resolution (name : Name) (linker : Linker) : Resolution :=
  if linker.reports name then .duplicate
  else
    match linker.globalSymbolTable.find name with
    | none => .unmentioned
    | some symbol =>
      if !symbol.defined then .undefined symbol.isWeak
      else if symbol.header.shndx = shnCom then .common symbol.size symbol.header.value
      else if symbol.isWeak then .weak
      else .strong symbol.file symbol.header

end DaveCC.Linking
