import DaveCC.Archive.ArchiveWriter
import DaveCC.Container.HashTable
import DaveCC.Container.SortedMap

/-!
# Reading an archive

An archive is opened by a walk over the headers of its members, which skips the contents of
each by the size in its header. The references into the long names are then replaced by the
names, and the symbol table is read into a hash table. The file is a list of bytes, and a
position in it is what is left to read.
-/

namespace DaveCC.Archive

open Container

/-- The characters up to the one that ends them; absent when the header ends first. -/
def readTo (stop : BitVec 8) : Bytes → Option Bytes
  | [] => none
  | char :: rest => if char = stop then some [] else (readTo stop rest).map (char :: ·)

def readFilename (header : Bytes) : Option Bytes :=
  if header.head? = some slash then
    if header[1]? = some slash then some [slash, slash]
    else if header[1]? = some space then some [slash]
    else readTo space header
  else readTo slash header

/-- `ReadInteger`, over the characters of the field. -/
def readInteger : ℤ → Bytes → ℤ
  | value, [] => value
  | value, char :: rest =>
    if char = space then value else readInteger (value * 10 + char.toInt - 48) rest

/-- The cast to `int`. -/
def toInt32 (value : ℤ) : ℤ :=
  value.bmod (2 ^ 32)

/-- `ARFile` as it is read: the offset is that of the contents. -/
structure ReadFile where
  filename : Bytes
  size : ℤ
  owner : ℤ
  group : ℤ
  mode : ℤ
  timestamp : ℤ
  fileOffset : ℕ
  deriving DecidableEq

/-- The file of a header, when its end marker is there. -/
def readFileHeader (header : Bytes) (fileOffset : ℕ) : Option ReadFile :=
  if (header.drop 58).take 2 = archiveFileEnd then
    (readFilename header).map fun filename =>
      { filename
        size := readInteger 0 ((header.drop 48).take 10)
        owner := toInt32 (readInteger 0 ((header.drop 28).take 6))
        group := toInt32 (readInteger 0 ((header.drop 34).take 6))
        mode := toInt32 (readInteger 0 ((header.drop 40).take 8))
        timestamp := readInteger 0 ((header.drop 16).take 12)
        fileOffset }
  else none

/-- `ARSymbol` as it is read, with its file as an index into the files of the archive. -/
structure ReadSymbol where
  name : Bytes
  file : ℕ

structure ARArchive where
  files : List ReadFile
  fileOffsets : SortedMap ℤ ℕ
  extendedFilenamesOffset : ℕ
  symbolTableFile : Option ReadFile
  symbolTable : HashTable ReadSymbol

/-- `HashSymbol`, for the name of a symbol. -/
def hashSymbol (name : Bytes) : ℕ :=
  (name.foldl (fun (hash : BitVec 32) char => (hash <<< 5) + hash + char.signExtend 32) 5381#32).toNat

namespace ARArchive

/-- `ARArchiveInit`. -/
def new : ARArchive where
  files := []
  fileOffsets := {}
  extendedFilenamesOffset := 0
  symbolTableFile := none
  symbolTable := .init 1009

/-- A file that was read joins the archive, under the offset of its header. -/
def addFile (archive : ARArchive) (fileStart : ℕ) (file : ReadFile) : ARArchive where
  files := archive.files ++ [file]
  fileOffsets := archive.fileOffsets.insert compare fileStart archive.files.length
  extendedFilenamesOffset :=
    if file.filename = [slash, slash] then file.fileOffset else archive.extendedFilenamesOffset
  symbolTableFile := if file.filename = [slash] then some file else archive.symbolTableFile
  symbolTable := archive.symbolTable

/-- The symbols that were read are inserted one after another. -/
def insertSymbols (archive : ARArchive) (symbols : List ReadSymbol) : ARArchive :=
  { archive with
    symbolTable := symbols.foldl
      (fun table symbol => table.insert ReadSymbol.name hashSymbol symbol) archive.symbolTable }

/-- `ARArchiveFindSymbol`. -/
def findSymbol (archive : ARArchive) (name : Bytes) : Option ReadSymbol :=
  archive.symbolTable.search ReadSymbol.name hashSymbol name

end ARArchive

/-- The position after the contents; a seek to before the start of the file fails. -/
def skipContents (fileOffset : ℕ) (size : ℤ) : ℕ :=
  let target := fileOffset + (size + 1) / 2 * 2
  if target < 0 then fileOffset else target.toNat

/-- `ReadFileHeaders`. A header that the end of the file cuts short is not defined. -/
def readFileHeaders (image : Bytes) : ℕ → ℕ → ARArchive → Option ARArchive
  | 0, _, _ => none
  | fuel + 1, fileStart, archive =>
    let header := (image.drop fileStart).take headerSize
    if header = [] then some archive
    else if header.length < headerSize then none
    else do
      let file ← readFileHeader header (fileStart + headerSize)
      readFileHeaders image fuel (skipContents file.fileOffset file.size)
        (archive.addFile fileStart file)

def isDigit (char : BitVec 8) : Bool :=
  48 ≤ char.toNat && char.toNat ≤ 57

/-- The name that an entry of `ReadExtendedFilenames` gets; a seek to before the start of the
file is not followed. -/
def readExtendedFilename (image : Bytes) (extendedFilenamesOffset : ℕ) (filename : Bytes) :
    Option Bytes :=
  if filename.head? = some slash ∧ (filename[1]?).any isDigit = true then
    let position := extendedFilenamesOffset + Arith.digitsValue 0 filename.tail
    if position < 0 then none
    else some ((image.drop position.toNat).takeWhile fun char => char ≠ slash ∧ char ≠ newline)
  else some filename

def readExtendedFilenames (image : Bytes) (archive : ARArchive) : Option ARArchive := do
  let files ← archive.files.mapM fun file => do
    let filename ← readExtendedFilename image archive.extendedFilenamesOffset file.filename
    return { file with filename }
  return { archive with files }

/-- The low byte of `fgetc`, which is all ones at the end of the file. -/
def readByte : Bytes → ℤ × Bytes
  | [] => (255, [])
  | byte :: rest => (byte.toNat, rest)

def readBigEndianInt (bytes : Bytes) : ℤ × Bytes :=
  let (first, bytes) := readByte bytes
  let (second, bytes) := readByte bytes
  let (third, bytes) := readByte bytes
  let (fourth, bytes) := readByte bytes
  (toInt32 (((first * 2 ^ 8 + second) * 2 ^ 8 + third) * 2 ^ 8 + fourth), bytes)

def readSymbolName : Bytes → Bytes × Bytes
  | [] => ([], [])
  | char :: rest =>
    if char = 0 then ([], rest)
    else
      let (name, rest) := readSymbolName rest
      (char :: name, rest)

/-- The loop that finds the file of every offset; an unknown one makes the program exit. -/
def readSymbolFiles (fileOffsets : SortedMap ℤ ℕ) : ℕ → Bytes → Option (List ℕ × Bytes)
  | 0, bytes => some ([], bytes)
  | count + 1, bytes => do
      let (fileOffset, bytes) := readBigEndianInt bytes
      let file ← fileOffsets.find compare fileOffset
      let (files, bytes) ← readSymbolFiles fileOffsets count bytes
      return (file :: files, bytes)

/-- The loop that reads the name of every symbol. -/
def readSymbolNames : List ℕ → Bytes → List ReadSymbol
  | [], _ => []
  | file :: files, bytes =>
    let (name, bytes) := readSymbolName bytes
    { name, file } :: readSymbolNames files bytes

def readSymbolTable (image : Bytes) (archive : ARArchive) (start : ℕ) : Option ARArchive := do
  let (numEntries, bytes) := readBigEndianInt (image.drop start)
  let (files, bytes) ← readSymbolFiles archive.fileOffsets numEntries.toNat bytes
  return archive.insertSymbols (readSymbolNames files bytes)

/-- `ARArchiveOpen`, on a new archive. -/
def openArchive (image : Bytes) (fuel : ℕ) : Option ARArchive :=
  if image.take 8 = archiveMagic then do
    let archive ← readFileHeaders image fuel 8 .new
    let archive ← readExtendedFilenames image archive
    match archive.symbolTableFile with
    | none => return archive
    | some file => readSymbolTable image archive file.fileOffset
  else none

end DaveCC.Archive
