import DaveCC.Arith.DecimalText

/-!
# Writing an archive

An archive in the System V format: a magic string, then members of a fixed header, contents
and padding to an even offset. The symbol table `/` and the long member names `//` are the
first members. The builder computes the offset of every member before it writes any byte, and
the symbol table is written from these offsets.
-/

namespace DaveCC.Archive

open Arith

abbrev Bytes := List (BitVec 8)

def slash : BitVec 8 := 47

def space : BitVec 8 := 32

def newline : BitVec 8 := 10

/-- `AR_MAGIC`, `"!<arch>\n"`. -/
def archiveMagic : Bytes := [33, 60, 97, 114, 99, 104, 62, 10]

/-- `AR_FILE_END`. -/
def archiveFileEnd : Bytes := [0x60, 0x0a]

/-- The name of a member: a C string without a slash or a newline. -/
structure MemberName where
  chars : Bytes
  plain : ∀ char ∈ chars, char ≠ 0 ∧ char ≠ slash ∧ char ≠ newline

/-- The name of a symbol: a C string. -/
structure SymbolName where
  chars : Bytes
  terminated : ∀ char ∈ chars, char ≠ 0

/-- `ARFile`, with its contents as the bytes that its size counts. -/
structure ARFile where
  filename : MemberName
  owner : ℤ
  group : ℤ
  mode : ℤ
  timestamp : ℤ
  contents : Bytes
  deleted : Bool
  fileOffset : ℕ
  extendedFilenameOffset : ℕ

/-- `ARSymbol`, with its file as an index into the files of the builder. -/
structure ARSymbol where
  name : SymbolName
  file : ℕ

structure ARArchiveBuilder where
  files : List ARFile
  symbols : List ARSymbol
  inFiles : ∀ symbol ∈ symbols, symbol.file < files.length

namespace ARArchiveBuilder

/-- `NewARArchiveBuilder`. -/
def new : ARArchiveBuilder where
  files := []
  symbols := []
  inFiles _ absent := nomatch absent

/-- `ARArchiveBuilderAddExisingFile`. -/
def addExistingFile (builder : ARArchiveBuilder) (file : ARFile) : ARArchiveBuilder where
  files := builder.files ++ [file]
  symbols := builder.symbols
  inFiles symbol inside := by
    rw [List.length_append]
    exact Nat.lt_add_right _ (builder.inFiles symbol inside)

/-- `ARArchiveBuilderAddFile`. -/
def addFile (builder : ARArchiveBuilder) (filename : MemberName) (owner group mode timestamp : ℤ)
    (contents : Bytes) : ARArchiveBuilder :=
  builder.addExistingFile
    { filename, owner, group, mode, timestamp, contents, deleted := false, fileOffset := 0,
      extendedFilenameOffset := 0 }

/-- `ARArchiveBuilderAddSymbol`. -/
def addSymbol (builder : ARArchiveBuilder) (file : Fin builder.files.length) (name : SymbolName) :
    ARArchiveBuilder where
  files := builder.files
  symbols := builder.symbols ++ [{ name, file }]
  inFiles symbol inside := by
    rcases List.mem_append.mp inside with old | isNew
    · exact builder.inFiles symbol old
    · rw [List.mem_singleton.mp isNew]
      exact file.isLt

/-- The mark `deleted` of a file. -/
def markDeleted (builder : ARArchiveBuilder) (index : ℕ) : ARArchiveBuilder where
  files := builder.files.modify index fun file => { file with deleted := true }
  symbols := builder.symbols
  inFiles symbol inside := by
    rw [List.length_modify]
    exact builder.inFiles symbol inside

end ARArchiveBuilder

/-! ## Preparing the offsets -/

/-- `PrepareExtendedFilenames`, from the offset of the next long name. -/
def prepareExtendedFilenames : ℕ → List ARFile → List ARFile
  | _, [] => []
  | offset, file :: files =>
    if 15 < file.filename.chars.length then
      { file with extendedFilenameOffset := offset } ::
        prepareExtendedFilenames (offset + file.filename.chars.length + 1) files
    else file :: prepareExtendedFilenames offset files

/-- The `long_filenames` that `PrepareExtendedFilenames` collects. -/
def longFilenames (files : List ARFile) : List MemberName :=
  (files.filter fun file => 15 < file.filename.chars.length).map ARFile.filename

/-- The `next_long_filename_offset` after `PrepareExtendedFilenames`. -/
def nextLongFilenameOffset (files : List ARFile) : ℕ :=
  (longFilenames files).foldl (fun offset filename => offset + filename.chars.length + 1) 0

def align2 (offset : ℕ) : ℕ :=
  (offset + 1) / 2 * 2

/-- The size of an `ARFileHeader`. -/
def headerSize : ℕ := 60

/-- The loop that sets the offset of every file. -/
def calculateFileOffsets : ℕ → List ARFile → List ARFile
  | _, [] => []
  | offset, file :: files =>
    { file with fileOffset := offset } ::
      calculateFileOffsets (offset + align2 (file.contents.length + headerSize)) files

/-- Whether the file of a symbol is marked as deleted. -/
def isDeleted (files : List ARFile) (symbol : ARSymbol) : Bool :=
  (files[symbol.file]?).any ARFile.deleted

/-- The symbols of files that are not deleted. -/
def survivingSymbols (builder : ARArchiveBuilder) : List ARSymbol :=
  builder.symbols.filter fun symbol => !isDeleted builder.files symbol

/-- The `symbol_table_length` after `PrepareSymbolTable`. -/
def symbolTableLength (builder : ARArchiveBuilder) : ℕ :=
  (survivingSymbols builder).foldl (fun length symbol => length + symbol.name.chars.length + 1 + 4) 4

/-- The offset of the first file, after the symbol table and the long names. -/
def firstFileOffset (builder : ARArchiveBuilder) : ℕ :=
  let offset := align2 (8 + headerSize + symbolTableLength builder)
  if 0 < (longFilenames builder.files).length then
    offset + align2 (headerSize + nextLongFilenameOffset builder.files)
  else offset

/-- The files with their offsets. -/
def preparedFiles (builder : ARArchiveBuilder) : List ARFile :=
  calculateFileOffsets (firstFileOffset builder) (prepareExtendedFilenames 0 builder.files)

/-- `WriteLeftInt`: a text that fills the field loses its last digit to the terminator, and a
longer text makes the padding loop run past the header. -/
def writeLeftInt (value : ℤ) (width : ℕ) : Option Bytes :=
  let text := integerText value
  if text.length < width then some (text ++ List.replicate (width - text.length) space)
  else if text.length = width then some (text.dropLast ++ [0])
  else none

/-- `WriteLeftString`, for a text that fits. -/
def writeLeftString (text : Bytes) (width : ℕ) : Bytes :=
  text ++ List.replicate (width - text.length) space

/-- `WriteLeftFilename`, for a name that fits with its slash. -/
def writeLeftFilename (filename : Bytes) (width : ℕ) : Bytes :=
  if filename.head? = some slash then writeLeftString filename width
  else writeLeftString (filename ++ [slash]) width

/-- `BuildFileHeader`, after the field of the name. -/
def buildFileHeader (filename : Bytes) (owner group mode timestamp : ℤ) (size : ℕ) : Option Bytes := do
  let size ← writeLeftInt size 10
  let owner ← writeLeftInt owner 6
  let group ← writeLeftInt group 6
  let mode ← writeLeftInt mode 8
  let timestamp ← writeLeftInt timestamp 12
  return filename ++ timestamp ++ owner ++ group ++ mode ++ size ++ archiveFileEnd

def alignFileOffset (out : Bytes) : Bytes :=
  if out.length % 2 = 1 then out ++ [0] else out

/-- The field of a member's name: the name, or its offset in the long names. -/
def filenameField (file : ARFile) : Bytes :=
  if 15 < file.filename.chars.length then
    writeLeftString ((slash :: naturalText file.extendedFilenameOffset).take 15) 16
  else writeLeftFilename file.filename.chars 16

/-- `WriteFile`, which asserts that the file is where its offset says. -/
def writeFile (out : Bytes) (file : ARFile) : Option Bytes :=
  if out.length = file.fileOffset then do
    let header ← buildFileHeader (filenameField file) file.owner file.group file.mode file.timestamp
      file.contents.length
    return alignFileOffset (out ++ header ++ file.contents)
  else none

def writeBigEndianInt (value : ℤ) : Bytes :=
  [BitVec.ofInt 8 (value / 2 ^ 24), BitVec.ofInt 8 (value / 2 ^ 16), BitVec.ofInt 8 (value / 2 ^ 8),
    BitVec.ofInt 8 value]

def symbolOffset (files : List ARFile) (symbol : ARSymbol) : ℕ :=
  ((files[symbol.file]?).map ARFile.fileOffset).getD 0

/-- The contents of the symbol table: the number of symbols, their offsets and their names. -/
def symbolTableContents (builder : ARArchiveBuilder) : Bytes :=
  let symbols := survivingSymbols builder
  writeBigEndianInt symbols.length ++
    symbols.flatMap (fun symbol => writeBigEndianInt (symbolOffset (preparedFiles builder) symbol)) ++
    symbols.flatMap fun symbol => symbol.name.chars ++ [0]

/-- `WriteSymbolTable`, with the time as `now`. -/
def writeSymbolTable (builder : ARArchiveBuilder) (now : ℤ) (out : Bytes) : Option Bytes :=
  if builder.symbols.length = 0 then some out
  else do
    let header ← buildFileHeader (writeLeftFilename [slash] 16) 0 0 0o777 now (symbolTableLength builder)
    return alignFileOffset (out ++ header ++ symbolTableContents builder)

/-- The contents of the long names: each is ended by a newline. -/
def extendedFilenamesContents (builder : ARArchiveBuilder) : Bytes :=
  (longFilenames builder.files).flatMap fun filename => filename.chars ++ [newline]

def writeExtendedFilenames (builder : ARArchiveBuilder) (now : ℤ) (out : Bytes) : Option Bytes :=
  if (longFilenames builder.files).length = 0 then some out
  else do
    let header ← buildFileHeader (writeLeftFilename [slash, slash] 16) 0 0 0o777 now
      (nextLongFilenameOffset builder.files)
    return alignFileOffset (out ++ header ++ extendedFilenamesContents builder)

/-- The loop that writes the files that are not deleted. -/
def writeFiles (out : Bytes) (files : List ARFile) : Option Bytes :=
  files.foldlM (fun out file => if file.deleted then some out else writeFile out file) out

/-- `ARArchiveBuilderWrite`: the bytes of the file. -/
def write (builder : ARArchiveBuilder) (now : ℤ) : Option Bytes := do
  let out ← writeSymbolTable builder now archiveMagic
  let out ← writeExtendedFilenames builder now out
  writeFiles out (preparedFiles builder)

end DaveCC.Archive
