import DaveCC.Arith.Alignment
import DaveCC.Container.SortedMap
import DaveCC.Debug.LineProgram

/-!
# The contents of `.debug_line`

`dwarf.c`: the tables of directories, files and locations that an assembler fills, and the
line-number information that it builds from them. A string is its bytes without the null
byte that ends it.
-/

namespace DaveCC.Debug

open DaveCC.Arith DaveCC.Container

/-- The path of a file: it has no null byte, and does not end in a slash. -/
structure FilePath where
  bytes : Bytes
  terminated : 0 ∉ bytes
  nonempty : bytes ≠ []
  named : bytes.getLast? ≠ some 47

structure LocationEntry where
  file : BitVec 32
  line : BitVec 32
  col : BitVec 32
  sectionIndex : Nat
  address : BitVec 64
  deriving DecidableEq

structure FileEntry where
  filename : Bytes
  dir : Nat
  deriving DecidableEq

/-- `Dwarf`, as long as nothing has been built. -/
structure Dwarf where
  directoryTable : SortedMap Bytes Nat := {}
  nextDirIndex : Nat := 2
  fileTable : List FileEntry := []
  locations : List LocationEntry := []
  minInstructionLength : Nat := 4
  lineBase : BitVec 8 := -5
  lineRange : BitVec 8 := 14

/-- `DwarfInit`, after which `AsmObjectInit` changes the length for a machine whose
instructions are bytes. -/
def dwarfInit (byteInstructions : Bool) : Dwarf where
  minInstructionLength := if byteInstructions then 1 else 4

/-- `StringLastIndexOf` of a slash. -/
def lastSlash (filename : Bytes) : Option Nat :=
  (List.range filename.length).reverse.find? fun index => filename[index]? == some 47

/-- `strcmp`, which compares bytes without a sign. -/
def compareStrings (first second : Bytes) : Ordering :=
  compare first second

instance : Std.TransCmp compareStrings :=
  inferInstanceAs (Std.TransOrd Bytes)

instance : Std.LawfulEqCmp compareStrings :=
  inferInstanceAs (Std.LawfulEqOrd Bytes)

def dwarfAddFile (dwarf : Dwarf) (filename : Bytes) : Dwarf :=
  match lastSlash filename with
  | none => { dwarf with fileTable := dwarf.fileTable ++ [⟨filename, 0⟩] }
  | some index =>
    let dirName := filename.take index
    let basename := filename.drop (index + 1)
    match dwarf.directoryTable.find compareStrings dirName with
    | none =>
      { dwarf with
        directoryTable := dwarf.directoryTable.insert compareStrings dirName dwarf.nextDirIndex
        nextDirIndex := dwarf.nextDirIndex + 1
        fileTable := dwarf.fileTable ++ [⟨basename, dwarf.nextDirIndex - 1⟩] }
    | some dirPlusOne =>
      { dwarf with fileTable := dwarf.fileTable ++ [⟨basename, dirPlusOne - 1⟩] }

/-- `DwarfAddLocation`. A location at the place of the last one replaces it. -/
def dwarfAddLocation (dwarf : Dwarf) (loc : LocationEntry) : Dwarf :=
  match dwarf.locations.getLast? with
  | none => { dwarf with locations := dwarf.locations ++ [loc] }
  | some last =>
    if last.address = loc.address ∧ last.sectionIndex = loc.sectionIndex then
      { dwarf with
        locations := dwarf.locations.dropLast ++
          [{ last with file := loc.file, line := loc.line, col := loc.col }] }
    else { dwarf with locations := dwarf.locations ++ [loc] }

/-- A registration of an assembler. -/
inductive Registration where
  | file (path : FilePath)
  | location (loc : LocationEntry)

def register (dwarf : Dwarf) : Registration → Dwarf
  | .file path => dwarfAddFile dwarf path.bytes
  | .location loc => dwarfAddLocation dwarf loc

/-- Put a word of four bytes at an offset. -/
def overwriteWord (buffer : Bytes) (offset value : Nat) : Bytes :=
  buffer.take offset ++ wordBytes 4 value ++ buffer.drop (offset + 4)

def standardOpcodeLengths : List Nat :=
  [0, 1, 1, 1, 1, 0, 0, 0, 1, 0, 0, 1]

/-- The fields up to the tables, before the lengths are known. -/
def headerFields (dwarf : Dwarf) : Bytes :=
  wordBytes 4 0 ++ wordBytes 2 4 ++ wordBytes 4 0 ++
    [BitVec.ofNat 8 dwarf.minInstructionLength, 1, 1, dwarf.lineBase, dwarf.lineRange, 13] ++
    standardOpcodeLengths.map (BitVec.ofNat 8)

/-- `EmitDirectory` of every directory, and the end of the table. -/
def directoryBytes (dwarf : Dwarf) : Bytes :=
  dwarf.directoryTable.values.flatMap (fun entry => entry.1 ++ [0]) ++ [0]

def fileBytes (file : FileEntry) : Bytes :=
  file.filename ++ [0] ++ uleb128 5 (file.dir % 2 ^ 32) ++ uleb128 5 0 ++ uleb128 5 0

/-- The header with its length. -/
def headerBytes (dwarf : Dwarf) : Bytes :=
  let buffer :=
    headerFields dwarf ++ directoryBytes dwarf ++ dwarf.fileTable.flatMap fileBytes ++ [0]
  overwriteWord buffer 6 (buffer.length - 10)

/-- The contents so far, and the offsets and the sections of the addresses in it. -/
structure LineContents where
  bytes : Bytes
  addressFixups : List (Nat × Nat) := []

def LineContents.append (contents : LineContents) (bytes : Bytes) : LineContents :=
  { contents with bytes := contents.bytes ++ bytes }

/-- The variables of the loop over the locations. -/
structure StatementState where
  contents : LineContents
  prevLoc : Option LocationEntry := none
  currentFile : BitVec 32 := 1
  currentColumn : BitVec 32 := 0

def endSequenceBytes : Bytes := [0, 1, 1]

/-- Whether a location starts a sequence of its own. -/
def newSequence (prevLoc : Option LocationEntry) (loc : LocationEntry) : Bool :=
  match prevLoc with
  | none => true
  | some prev => loc.sectionIndex != prev.sectionIndex || loc.address < prev.address

/-- The end of the sequence before a location, and the start of the one at it. -/
def startSequence (minInstructionLength : Nat) (state : StatementState) (loc : LocationEntry) :
    StatementState :=
  let contents :=
    match state.prevLoc with
    | none => state.contents
    | some _ => state.contents.append endSequenceBytes
  let contents :=
    (contents.append (3 :: sleb128 5 (loc.line - 1).toInt)).append [0, 9, 2]
  let contents :=
    { contents with
      addressFixups := contents.addressFixups ++ [(contents.bytes.length, loc.sectionIndex)] }
  { state with
    contents := (contents.append (wordBytes 8 0)).append
      (2 :: uleb128 5 (loc.address.toNat / minInstructionLength % 2 ^ 32))
    currentFile := 1
    currentColumn := 0 }

def setFile (state : StatementState) (loc : LocationEntry) : StatementState :=
  if loc.file = state.currentFile then state
  else
    { state with
      contents := state.contents.append (4 :: uleb128 5 loc.file.toNat)
      currentFile := loc.file }

def setColumn (state : StatementState) (loc : LocationEntry) : StatementState :=
  if loc.col = state.currentColumn then state
  else
    { state with
      contents := state.contents.append (5 :: uleb128 5 loc.col.toNat)
      currentColumn := loc.col }

/-- From the location before one to it. -/
def advanceFrom (minInstructionLength : Nat) (state : StatementState) (prev loc : LocationEntry) :
    StatementState :=
  let lineDiff := loc.line - prev.line
  let addressDiff := (loc.address - prev.address).toNat / minInstructionLength % 2 ^ 32
  let contents :=
    if lineDiff = 0 then state.contents
    else state.contents.append (3 :: sleb128 5 lineDiff.toInt)
  let contents :=
    if addressDiff = 0 then contents else contents.append (2 :: uleb128 5 addressDiff)
  { state with contents := contents }

/-- One iteration of the loop over the locations. -/
def emitLocation (minInstructionLength : Nat) (state : StatementState) (loc : LocationEntry) :
    StatementState :=
  let starts := newSequence state.prevLoc loc
  let state := if starts then startSequence minInstructionLength state loc else state
  let state := setColumn (setFile state loc) loc
  let state :=
    match state.prevLoc with
    | some prev => if starts then state else advanceFrom minInstructionLength state prev loc
    | none => state
  { state with contents := state.contents.append [1], prevLoc := some loc }

/-- The end of the last sequence. -/
def finish (state : StatementState) : LineContents :=
  match state.prevLoc with
  | none => state.contents
  | some _ => state.contents.append endSequenceBytes

/-- The header and the statement program. -/
def unitContents (dwarf : Dwarf) : LineContents :=
  finish (dwarf.locations.foldl (emitLocation dwarf.minInstructionLength)
    { contents := { bytes := headerBytes dwarf } })

def dwarfBuildDebugLineContents (dwarf : Dwarf) : LineContents :=
  let contents := unitContents dwarf
  let length := contents.bytes.length
  { contents with
    bytes := overwriteWord contents.bytes 0 (length - 4) ++
      List.replicate (alignUp length 8 - length) 0 }

end DaveCC.Debug
