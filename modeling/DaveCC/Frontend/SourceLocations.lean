import DaveCC.Arith.BitFields

/-!
# Source locations

`NewSourceLocation`, `DecodeSourceLocation` and `SourceRemapLocationFile` of `source.c`. A
location packs the indices of a file and of one of its lines with the start and the length of
a token. The map from file names gives zero for a name it does not have.
-/

namespace DaveCC.Frontend.Locations

open Arith

/-- What a location needs of a `File`. -/
structure File where
  name : String
  lines : List (BitVec 64) := []
  isSystemHeader : Bool := false
  deriving DecidableEq, Repr

/-- What a location needs of a `Source`. -/
structure Source where
  filename : String
  fileIndex : BitVec 32 := -1
  isSystemHeader : Bool := false
  deriving DecidableEq, Repr

/-- `all_files`, and `file_map` from names to indices and one. -/
structure Tables where
  allFiles : List File := []
  fileMap : String → BitVec 32 := fun _ => 0

namespace Tables

variable (tables : Tables)

def newFile (filename : String) : Tables × BitVec 32 :=
  ({ tables with allFiles := tables.allFiles ++ [{ name := filename }] },
    BitVec.ofNat 32 tables.allFiles.length)

/-- `FindFile`, unless it reads behind the table. -/
def findFile (filename : String) : Option (Tables × BitVec 32) :=
  let index := tables.fileMap filename
  if index ≠ 0 then some (tables, index - 1)
  else
    let (tables, fileIndex) := tables.newFile filename
    match tables.allFiles[fileIndex.toNat]? with
    | none => none
    | some file =>
      some ({ tables with fileMap := Function.update tables.fileMap file.name (fileIndex + 1) },
        fileIndex)

def sourceImportFile (filename : String) (isSystemHeader : Bool) (lines : List (BitVec 64)) :
    Tables × BitVec 32 :=
  ({ tables with allFiles := tables.allFiles ++ [{ name := filename, lines, isSystemHeader }] },
    BitVec.ofNat 32 tables.allFiles.length)

end Tables

/-- `SOURCE_LOCATION_MISSING`. -/
def missing : BitVec 64 := 0xfffffffffffffffe

/-- `SOURCE_LOCATION_COMMAND_LINE`. -/
def commandLine : BitVec 64 := 0xffffffffffffffff

/-- `LOC_LINE_SHIFT` and `LOC_LINE_MASK`. -/
def lineField (location : BitVec 64) : BitVec 64 := bitField 0 20 location

/-- `LOC_FILE_SHIFT` and `LOC_FILE_MASK`. -/
def fileField (location : BitVec 64) : BitVec 64 := bitField 20 16 location

/-- `LOC_LENGTH_SHIFT` and `LOC_LENGTH_MASK`. -/
def lengthField (location : BitVec 64) : BitVec 64 := bitField 36 13 location

/-- `LOC_START_SHIFT` and `LOC_START_MASK`. -/
def startField (location : BitVec 64) : BitVec 64 := bitField 49 16 location

/-- The parts of a location joined. -/
def pack (file line start length : BitVec 64) : BitVec 64 :=
  file <<< 20 ||| line <<< 0 ||| start <<< 49 ||| length <<< 36

/-- A token can have a location as far as its start and its file go. -/
def Placeable (fileIndex : BitVec 32) (start : BitVec 64) : Prop :=
  start ≤ 0xffff ∧ fileIndex ≤ 0xffff

/-- A line has room for a location, and the length of a token is not too large. -/
def Recordable (file : File) (length : BitVec 64) : Prop :=
  file.lines.length ≤ 0xffffd ∧ length.toInt ≤ 0x1fff

instance (fileIndex : BitVec 32) (start : BitVec 64) : Decidable (Placeable fileIndex start) :=
  inferInstanceAs (Decidable (_ ∧ _))

instance (file : File) (length : BitVec 64) : Decidable (Recordable file length) :=
  inferInstanceAs (Decidable (_ ∧ _))

/-- The line of a file that a location names, which is added when the last one differs. -/
def File.recordLine (file : File) (lineno : BitVec 32) : File × ℕ :=
  if file.lines.getLast? = some (lineno.signExtend 64) then (file, file.lines.length - 1)
  else ({ file with lines := file.lines ++ [lineno.signExtend 64] }, file.lines.length)

/-- The result of `NewSourceLocation`, and what it leaves behind. -/
structure Located where
  tables : Tables
  source : Source
  location : BitVec 64

/-- `NewSourceLocation` for a source that knows its file, unless it reads behind the table. -/
def Tables.locate (tables : Tables) (source : Source) (lineno : BitVec 32)
    (start finish : BitVec 64) : Option Located :=
  if ¬ Placeable source.fileIndex start then some ⟨tables, source, missing⟩
  else
    match tables.allFiles[source.fileIndex.toNat]? with
    | none => none
    | some file =>
      let file := if source.isSystemHeader then { file with isSystemHeader := true } else file
      let update (file : File) : Tables :=
        { tables with allFiles := tables.allFiles.set source.fileIndex.toNat file }
      if ¬ Recordable file (finish - start) then some ⟨update file, source, missing⟩
      else
        let (file, line) := file.recordLine lineno
        some ⟨update file, source, pack (source.fileIndex.setWidth 64) (BitVec.ofNat 64 line) start
          (finish - start)⟩

def Tables.newSourceLocation (tables : Tables) (source : Source) (lineno : BitVec 32)
    (start finish : BitVec 64) : Option Located :=
  if source.fileIndex = -1 then do
    let (tables, fileIndex) ← tables.findFile source.filename
    tables.locate { source with fileIndex } lineno start finish
  else tables.locate source lineno start finish

/-- What `DecodeSourceLocation` gives. -/
structure Decoded where
  filename : String
  lineno : BitVec 32 := 0
  start : ℕ := 0
  finish : ℕ := 0
  deriving DecidableEq, Repr

def Tables.decodeSourceLocation (tables : Tables) (location : BitVec 64) : Decoded :=
  if location = commandLine then { filename := "command-line" }
  else if location = missing then { filename := "<unknown>" }
  else
    let start := (startField location).toNat
    match tables.allFiles[(fileField location).toNat]? with
    | none => { filename := "<unknown>", start }
    | some file =>
      { filename := file.name, start, finish := start + (lengthField location).toNat,
        lineno := (file.lines[(lineField location).toNat]?.map (·.setWidth 32)).getD 0 }

def sourceRemapLocationFile (location : BitVec 64) (newFileIndex : BitVec 32) : BitVec 64 :=
  if location = commandLine ∨ location = missing then location
  else pack (newFileIndex.setWidth 64) (lineField location) (startField location)
    (lengthField location)

/-- The parts of a location fit into its fields. The start has one bit less than its mask. -/
structure Packs (file line start length : BitVec 64) : Prop where
  file : file.toNat < 2 ^ 16
  line : line.toNat < 2 ^ 20
  start : start.toNat < 2 ^ 15
  length : length.toNat < 2 ^ 13

namespace Packs

variable {file line start length : BitVec 64} (packs : Packs file line start length)

include packs

theorem fileField_pack : fileField (pack file line start length) = file := by
  simp only [fileField, pack, bitField_or]
  rw [bitField_shiftLeft_self packs.file (by decide) (by decide),
    bitField_shiftLeft_of_below packs.line (by decide), bitField_shiftLeft_of_above (by decide),
    bitField_shiftLeft_of_above (by decide)]
  simp

theorem lineField_pack : lineField (pack file line start length) = line := by
  simp only [lineField, pack, bitField_or]
  rw [bitField_shiftLeft_self packs.line (by decide) (by decide), bitField_shiftLeft_of_above (by
    decide), bitField_shiftLeft_of_above (by decide), bitField_shiftLeft_of_above (by decide)]
  simp

theorem startField_pack : startField (pack file line start length) = start := by
  simp only [startField, pack, bitField_or]
  rw [bitField_shiftLeft_self packs.start (by decide) (by decide), bitField_shiftLeft_of_below
    packs.file (by decide), bitField_shiftLeft_of_below packs.line (by decide),
    bitField_shiftLeft_of_below packs.length (by decide)]
  simp

theorem lengthField_pack : lengthField (pack file line start length) = length := by
  simp only [lengthField, pack, bitField_or]
  rw [bitField_shiftLeft_self packs.length (by decide) (by decide),
    bitField_shiftLeft_of_below packs.file (by decide),
    bitField_shiftLeft_of_below packs.line (by decide), bitField_shiftLeft_of_above (by decide)]
  simp

end Packs

/-- A location is none of the reserved ones. -/
def IsReal (location : BitVec 64) : Prop := location ≠ missing ∧ location ≠ commandLine

theorem isReal_of_lineField {location : BitVec 64}
    (small : (lineField location).toNat ≤ 0xffffd) : IsReal location := by
  constructor
  · rintro rfl
    revert small
    decide
  · rintro rfl
    revert small
    decide

/-- What a location becomes in another file: only the file is another. -/
structure Remaps (location : BitVec 64) (newFileIndex : BitVec 32) : Prop where
  reserved : ¬ IsReal location → sourceRemapLocationFile location newFileIndex = location
  file : IsReal location → fileField (sourceRemapLocationFile location newFileIndex) =
    newFileIndex.setWidth 64
  line : lineField (sourceRemapLocationFile location newFileIndex) = lineField location
  start : startField (sourceRemapLocationFile location newFileIndex) = startField location
  length : lengthField (sourceRemapLocationFile location newFileIndex) = lengthField location

theorem remaps_iff (location : BitVec 64) (newFileIndex : BitVec 32) :
    Remaps location newFileIndex ↔ ¬ IsReal location ∨ newFileIndex ≤ 0xffff := by
  have toNat : (newFileIndex.setWidth 64).toNat = newFileIndex.toNat :=
    BitVec.toNat_setWidth_of_le (by decide)
  by_cases real : IsReal location
  · have remapped : sourceRemapLocationFile location newFileIndex =
        pack (newFileIndex.setWidth 64) (lineField location) (startField location)
          (lengthField location) :=
      if_neg fun reserved => reserved.elim real.2 real.1
    constructor
    · intro remaps
      have small : (fileField (sourceRemapLocationFile location newFileIndex)).toNat < 2 ^ 16 :=
        toNat_bitField_lt (.inl le_rfl) _
      rw [remaps.file real, toNat] at small
      exact .inr (BitVec.le_def.mpr (Nat.le_of_lt_succ small))
    · intro small
      have small := BitVec.le_def.mp (small.resolve_left (not_not_intro real))
      have startSmall : (startField location).toNat < 2 ^ 15 :=
        @toNat_bitField_lt 64 49 16 15 (.inr le_rfl) location
      have packs : Packs (newFileIndex.setWidth 64) (lineField location) (startField location)
          (lengthField location) :=
        ⟨toNat.trans_lt (Nat.lt_succ_of_le small), toNat_bitField_lt (.inl le_rfl) _, startSmall,
          toNat_bitField_lt (.inl le_rfl) _⟩
      constructor
      · exact fun reserved => absurd real reserved
      all_goals rw [remapped]
      · exact fun _ => packs.fileField_pack
      · exact packs.lineField_pack
      · exact packs.startField_pack
      · exact packs.lengthField_pack
  · have same : sourceRemapLocationFile location newFileIndex = location := by
      apply if_pos
      by_contra unreserved
      exact real ⟨fun isMissing => unreserved (.inr isMissing),
        fun isCommandLine => unreserved (.inl isCommandLine)⟩
    refine ⟨fun _ => .inl real, fun _ => ⟨fun _ => same, fun isReal => absurd isReal real, ?_, ?_, ?_⟩⟩
    all_goals rw [same]

/-- A call that adds to the tables. -/
inductive Call where
  | newFile (filename : String)
  | sourceImportFile (filename : String) (isSystemHeader : Bool) (lines : List (BitVec 64))
  | newSourceLocation (source : Source) (lineno : BitVec 32) (start finish : BitVec 64)
  deriving DecidableEq, Repr

/-- What was given for a location. -/
structure Entry where
  filename : String
  lineno : BitVec 32
  start : BitVec 64
  finish : BitVec 64
  location : BitVec 64
  deriving DecidableEq, Repr

namespace Tables

variable (tables : Tables)

/-- The name of the file that a source is of: the one its index tells, which need not be its
own name, or else its own name. -/
def nameOf (source : Source) : String :=
  if source.fileIndex = -1 then source.filename
  else (tables.allFiles[source.fileIndex.toNat]?.map File.name).getD ""

/-- A call, with the locations of the calls before it. -/
def step (state : Tables × List Entry) : Call → Option (Tables × List Entry)
  | .newFile filename => some ((state.1.newFile filename).1, state.2)
  | .sourceImportFile filename isSystemHeader lines =>
    some ((state.1.sourceImportFile filename isSystemHeader lines).1, state.2)
  | .newSourceLocation source lineno start finish =>
    (state.1.newSourceLocation source lineno start finish).map fun located =>
      (located.tables, state.2 ++
        [⟨state.1.nameOf source, lineno, start, finish, located.location⟩])

/-- Calls one after another, from empty tables. -/
def run (calls : List Call) : Option (Tables × List Entry) := calls.foldlM step ({}, [])

/-- The index that `NewSourceLocation` uses for a source. -/
def indexOf (source : Source) : BitVec 32 :=
  if source.fileIndex ≠ -1 then source.fileIndex
  else if tables.fileMap source.filename ≠ 0 then tables.fileMap source.filename - 1
  else BitVec.ofNat 32 tables.allFiles.length

/-- `NewSourceLocation` does not refuse a token. -/
def Accepts (source : Source) (start finish : BitVec 64) : Prop :=
  Placeable (tables.indexOf source) start ∧
    Recordable (tables.allFiles[(tables.indexOf source).toNat]?.getD { name := source.filename })
      (finish - start)

/-- A call keeps to what a location can hold: the index of a source was given before, there
is an index for another file, and an accepted token begins before the bit that the field of
the start lacks and does not end 2^63 characters behind it. -/
def Permits : Call → Prop
  | .newSourceLocation source _ start finish =>
    (source.fileIndex = -1 ∨ source.fileIndex.toNat < tables.allFiles.length) ∧
    (source.fileIndex = -1 → tables.fileMap source.filename = 0 → tables.allFiles.length < 2 ^ 32) ∧
    (tables.Accepts source start finish → start.toNat < 2 ^ 15 ∧ 0 ≤ (finish - start).toInt)
  | _ => True

end Tables

/-- Every call of a run keeps to what a location can hold. -/
def PermittedCalls (calls : List Call) : Prop :=
  ∀ before call after, calls = before ++ call :: after →
    ∀ state ∈ Tables.run before, state.1.Permits call

/-- A location stands for what was given for it. -/
structure Entry.Decodes (entry : Entry) (tables : Tables) : Prop where
  isReal : IsReal entry.location
  decoded : tables.decodeSourceLocation entry.location =
    ⟨entry.filename, entry.lineno, entry.start.toNat, entry.finish.toNat⟩
  start : startField entry.location = entry.start
  length : lengthField entry.location = entry.finish - entry.start

/-! ## Tables only grow -/

/-- Files keep their indices and names, and their lines keep theirs. -/
def Grows (before after : Tables) : Prop :=
  ∀ (index : ℕ) (file : File), before.allFiles[index]? = some file →
    ∃ later : File, after.allFiles[index]? = some later ∧ later.name = file.name ∧
      file.lines <+: later.lines

namespace Grows

variable {first second third : Tables}

theorem refl (tables : Tables) : Grows tables tables :=
  fun _ file found => ⟨file, found, rfl, List.prefix_rfl⟩

theorem trans (left : Grows first second) (right : Grows second third) : Grows first third := by
  intro index file found
  have ⟨later, laterFound, laterName, laterLines⟩ := left index file found
  have ⟨last, lastFound, lastName, lastLines⟩ := right index later laterFound
  exact ⟨last, lastFound, lastName.trans laterName, laterLines.trans lastLines⟩

/-- A file is added. -/
theorem append {file : File} (files : second.allFiles = first.allFiles ++ [file]) :
    Grows first second := by
  intro index file found
  have inside := (List.getElem?_eq_some_iff.mp found).1
  refine ⟨file, ?_, rfl, List.prefix_rfl⟩
  rw [files, List.getElem?_append_left inside, found]

/-- A file is replaced by one that has more lines. -/
theorem set {position : ℕ} {file later : File} (found : first.allFiles[position]? = some file)
    (name : later.name = file.name) (lines : file.lines <+: later.lines)
    (files : second.allFiles = first.allFiles.set position later) : Grows first second := by
  intro index other otherFound
  rw [files]
  by_cases same : position = index
  · subst same
    cases Option.some.inj (found.symm.trans otherFound)
    have inside := (List.getElem?_eq_some_iff.mp found).1
    exact ⟨later, List.getElem?_set_self inside, name, lines⟩
  · exact ⟨other, (List.getElem?_set_ne same).trans otherFound, rfl, List.prefix_rfl⟩

end Grows

/-- The map leads to files of the names that are looked up. -/
def Mapped (tables : Tables) : Prop :=
  ∀ name, tables.fileMap name ≠ 0 →
    ∃ file, tables.allFiles[(tables.fileMap name - 1).toNat]? = some file ∧ file.name = name

theorem Mapped.grows {before after : Tables} (mapped : Mapped before) (grows : Grows before after)
    (sameMap : after.fileMap = before.fileMap) : Mapped after := by
  intro name present
  rw [sameMap] at present ⊢
  have ⟨file, found, fileName⟩ := mapped name present
  have ⟨later, laterFound, laterName, _⟩ := grows _ _ found
  exact ⟨later, laterFound, laterName.trans fileName⟩

theorem setWidth_signExtend (lineno : BitVec 32) : (lineno.signExtend 64).setWidth 32 = lineno := by
  apply BitVec.eq_of_getLsbD_eq
  intro index inside
  rw [BitVec.getLsbD_setWidth, BitVec.getLsbD_signExtend]
  simp [inside, show index < 64 by omega]

/-- The lines that a location was given are those at its indices. -/
structure Entry.Placed (entry : Entry) (tables : Tables) (index line : ℕ) : Prop where
  location : entry.location = pack (BitVec.ofNat 64 index) (BitVec.ofNat 64 line) entry.start
    (entry.finish - entry.start)
  index_le : index ≤ 0xffff
  line_le : line ≤ 0xffffd
  start_lt : entry.start.toNat < 2 ^ 15
  length_nonneg : 0 ≤ (entry.finish - entry.start).toInt
  length_le : (entry.finish - entry.start).toInt ≤ 0x1fff
  found : ∃ file, tables.allFiles[index]? = some file ∧ file.name = entry.filename ∧
    file.lines[line]? = some (entry.lineno.signExtend 64)

namespace Entry.Placed

variable {entry : Entry} {tables after : Tables} {index line : ℕ}

theorem grows (placed : entry.Placed tables index line) (grows : Grows tables after) :
    entry.Placed after index line := by
  have ⟨file, found, name, lineAt⟩ := placed.found
  have ⟨later, laterFound, laterName, lines⟩ := grows _ _ found
  have inside := (List.getElem?_eq_some_iff.mp lineAt).1
  have laterAt : later.lines[line]? = some (entry.lineno.signExtend 64) := by
    rw [← List.prefix_iff_eq_append.mp lines, List.getElem?_append_left inside, lineAt]
  exact { placed with found := ⟨later, laterFound, laterName.trans name, laterAt⟩ }

theorem decodes (placed : entry.Placed tables index line) : entry.Decodes tables := by
  have length : (entry.finish - entry.start).toNat < 2 ^ 13 := by
    have nonnegative := placed.length_nonneg
    have small := placed.length_le
    rw [BitVec.toInt_eq_toNat_cond] at nonnegative small
    split at small <;> omega
  have indexNat : (BitVec.ofNat 64 index).toNat = index :=
    Nat.mod_eq_of_lt (placed.index_le.trans_lt (by decide))
  have lineNat : (BitVec.ofNat 64 line).toNat = line :=
    Nat.mod_eq_of_lt (placed.line_le.trans_lt (by decide))
  have packs : Packs (BitVec.ofNat 64 index) (BitVec.ofNat 64 line) entry.start
      (entry.finish - entry.start) :=
    ⟨indexNat.trans_lt (Nat.lt_succ_of_le placed.index_le),
      lineNat.trans_lt (placed.line_le.trans_lt (by decide)), placed.start_lt, length⟩
  have lineField_eq := packs.lineField_pack
  have fileField_eq := packs.fileField_pack
  have startField_eq := packs.startField_pack
  have lengthField_eq := packs.lengthField_pack
  rw [← placed.location] at lineField_eq fileField_eq startField_eq lengthField_eq
  have isReal : IsReal entry.location := isReal_of_lineField (by
    rw [lineField_eq, lineNat]
    exact placed.line_le)
  have finish : entry.start.toNat + (entry.finish - entry.start).toNat = entry.finish.toNat := by
    have together := congrArg BitVec.toNat (BitVec.sub_add_cancel entry.finish entry.start)
    rw [BitVec.toNat_add, Nat.mod_eq_of_lt (by have := placed.start_lt; omega)] at together
    rw [Nat.add_comm, together]
  have ⟨file, found, name, lineAt⟩ := placed.found
  refine ⟨isReal, ?_, startField_eq, lengthField_eq⟩
  rw [Tables.decodeSourceLocation, if_neg isReal.2, if_neg isReal.1, fileField_eq, lineField_eq,
    startField_eq, lengthField_eq, indexNat, lineNat, found]
  simp only [lineAt, name, finish, Option.map_some, Option.getD_some]
  rw [setWidth_signExtend]

end Entry.Placed

theorem recordLine_spec {file : File} {lineno : BitVec 32} {recorded : File × ℕ}
    (records : file.recordLine lineno = recorded) :
    recorded.1.name = file.name ∧ file.lines <+: recorded.1.lines ∧ recorded.2 ≤ file.lines.length ∧
      recorded.1.lines[recorded.2]? = some (lineno.signExtend 64) := by
  subst records
  rw [File.recordLine]
  split
  · next isLast =>
      exact ⟨rfl, List.prefix_rfl, Nat.sub_le _ _, List.getLast?_eq_getElem? ▸ isLast⟩
  · exact ⟨rfl, List.prefix_append _ _, le_rfl, List.getElem?_concat_length⟩

namespace Tables

variable {tables : Tables} {source : Source} {lineno : BitVec 32} {start finish : BitVec 64}

/-- What is left by a call that gives a location to a source of a file. -/
structure Locates (before : Tables) (source : Source) (entry : Entry) (after : Tables) : Prop where
  grows : Grows before after
  sameMap : after.fileMap = before.fileMap
  placed : entry.location = missing ∨ ∃ line, entry.Placed after source.fileIndex.toNat line

theorem locate_spec {file : File} (found : tables.allFiles[source.fileIndex.toNat]? = some file)
    (fits : Placeable source.fileIndex start → Recordable file (finish - start) →
      start.toNat < 2 ^ 15 ∧ 0 ≤ (finish - start).toInt) :
    ∃ located, tables.locate source lineno start finish = some located ∧
      Locates tables source ⟨file.name, lineno, start, finish, located.location⟩
        located.tables := by
  rw [locate]
  by_cases placeable : Placeable source.fileIndex start
  · rw [if_neg (not_not_intro placeable), found]
    dsimp only
    generalize marks : (if source.isSystemHeader = true then
      { file with isSystemHeader := true } else file) = marked
    have name : marked.name = file.name := by rw [← marks]; split <;> rfl
    have lines : marked.lines = file.lines := by rw [← marks]; split <;> rfl
    by_cases recordable : Recordable marked (finish - start)
    · rw [if_neg (not_not_intro recordable)]
      generalize records : marked.recordLine lineno = recorded
      have ⟨sameName, longer, line_le, lineAt⟩ := recordLine_spec records
      have sameRecordable : Recordable file (finish - start) := by rwa [Recordable, lines] at recordable
      have ⟨start_lt, length_nonneg⟩ := fits placeable sameRecordable
      have inside := (List.getElem?_eq_some_iff.mp found).1
      refine ⟨_, rfl, ?_, rfl, .inr ⟨recorded.2, ?_⟩⟩
      · exact Grows.set found (sameName.trans name) (lines ▸ longer) rfl
      · refine ⟨by rw [BitVec.ofNat_toNat], BitVec.le_def.mp placeable.2, line_le.trans recordable.1, start_lt,
          length_nonneg, recordable.2, recorded.1, ?_, sameName.trans name, lineAt⟩
        exact List.getElem?_set_self inside
    · rw [if_pos recordable]
      exact ⟨_, rfl, Grows.set found name (lines ▸ List.prefix_rfl) rfl, rfl, .inl rfl⟩
  · rw [if_pos placeable]
    exact ⟨_, rfl, Grows.refl tables, rfl, .inl rfl⟩

theorem findFile_spec (mapped : Mapped tables) (unknown : source.fileIndex = -1)
    (room : tables.fileMap source.filename = 0 → tables.allFiles.length < 2 ^ 32) :
    ∃ after, tables.findFile source.filename = some (after, tables.indexOf source) ∧
      Grows tables after ∧ Mapped after ∧ ∃ file,
        after.allFiles[(tables.indexOf source).toNat]? = some file ∧
        tables.allFiles[(tables.indexOf source).toNat]?.getD { name := source.filename } = file ∧
        file.name = source.filename := by
  rw [findFile, indexOf, if_neg (not_not_intro unknown)]
  by_cases present : tables.fileMap source.filename = 0
  · have toNat : (BitVec.ofNat 32 tables.allFiles.length).toNat = tables.allFiles.length :=
      Nat.mod_eq_of_lt (room present)
    have files : (tables.newFile source.filename).1.allFiles[tables.allFiles.length]? =
        some { name := source.filename } := List.getElem?_concat_length
    rw [if_neg (not_not_intro present), if_neg (not_not_intro present)]
    simp only [newFile, toNat] at files ⊢
    rw [files]
    have grows : Grows tables { tables with
        allFiles := tables.allFiles ++ [{ name := source.filename }]
        fileMap := Function.update tables.fileMap source.filename
          (BitVec.ofNat 32 tables.allFiles.length + 1) } := Grows.append rfl
    refine ⟨_, rfl, grows, ?_, _, files, by rw [List.getElem?_eq_none le_rfl, Option.getD_none], rfl⟩
    intro name isMapped
    by_cases same : name = source.filename
    · subst same
      refine ⟨{ name := source.filename }, ?_, rfl⟩
      dsimp only
      rw [Function.update_self, BitVec.add_sub_cancel, toNat, files]
    · dsimp only at isMapped ⊢
      rw [Function.update_of_ne same] at isMapped ⊢
      have ⟨file, found, fileName⟩ := mapped name isMapped
      have ⟨later, laterFound, laterName, _⟩ := grows _ _ found
      exact ⟨later, laterFound, laterName.trans fileName⟩
  · have ⟨file, found, name⟩ := mapped _ present
    rw [if_pos present, if_pos present]
    exact ⟨tables, rfl, Grows.refl tables, mapped, file, found, by rw [found, Option.getD_some], name⟩

/-- A permitted call gives a location that stands for what is given, or none. -/
theorem newSourceLocation_spec (mapped : Mapped tables)
    (permitted : tables.Permits (.newSourceLocation source lineno start finish)) :
    ∃ located, tables.newSourceLocation source lineno start finish = some located ∧
      Grows tables located.tables ∧ Mapped located.tables ∧
      (located.location = missing ∨ ∃ index line,
        Entry.Placed ⟨tables.nameOf source, lineno, start, finish, located.location⟩
          located.tables index line) := by
  have ⟨known, room, fits⟩ := permitted
  rw [newSourceLocation, nameOf]
  by_cases unknown : source.fileIndex = -1
  · have ⟨middle, finds, grows, middleMapped, file, found, before, name⟩ :=
      findFile_spec mapped unknown (room unknown)
    have ⟨located, locates, later⟩ :=
      @locate_spec middle { source with fileIndex := tables.indexOf source } lineno start finish file found
        fun placeable recordable => fits ⟨placeable, before ▸ recordable⟩
    rw [if_pos unknown, finds, Option.bind_eq_bind, Option.bind_some, if_pos unknown]
    rw [name] at later
    exact ⟨located, locates, grows.trans later.grows, middleMapped.grows later.grows later.sameMap,
      later.placed.imp_right fun ⟨line, placed⟩ => ⟨_, line, placed⟩⟩
  · have index : tables.indexOf source = source.fileIndex := if_pos unknown
    have inside := known.resolve_left unknown
    have found := List.getElem?_eq_getElem inside
    rw [Accepts, index, found, Option.getD_some] at fits
    have ⟨located, locates, later⟩ :=
      @locate_spec tables source lineno start finish _ found fun placeable recordable =>
        fits ⟨placeable, recordable⟩
    rw [if_neg unknown, if_neg unknown, found, Option.map_some, Option.getD_some]
    exact ⟨located, locates, later.grows, mapped.grows later.grows later.sameMap,
      later.placed.imp_right fun ⟨line, placed⟩ => ⟨_, line, placed⟩⟩

end Tables

/-- The map leads to files, and every location is none or stands for what was given. -/
structure Sound (state : Tables × List Entry) : Prop where
  mapped : Mapped state.1
  logged : ∀ entry ∈ state.2, entry.location = missing ∨
    ∃ index line, entry.Placed state.1 index line

theorem Sound.step {state : Tables × List Entry} (sound : Sound state) {call : Call}
    (permitted : state.1.Permits call) :
    ∃ after, Tables.step state call = some after ∧ Sound after := by
  have appended {file : File} {after : Tables} (files : after.allFiles = state.1.allFiles ++ [file])
      (sameMap : after.fileMap = state.1.fileMap) : Sound (after, state.2) := by
    have grows : Grows state.1 after := Grows.append files
    refine ⟨sound.mapped.grows grows sameMap, ?_⟩
    intro entry inside
    exact (sound.logged entry inside).imp_right fun ⟨index, line, placed⟩ =>
      ⟨index, line, placed.grows grows⟩
  cases call with
  | newFile filename => exact ⟨_, rfl, appended rfl rfl⟩
  | sourceImportFile filename isSystemHeader lines => exact ⟨_, rfl, appended rfl rfl⟩
  | newSourceLocation source lineno start finish =>
    have ⟨located, locates, grows, mapped, placed⟩ :=
      Tables.newSourceLocation_spec sound.mapped permitted
    rw [Tables.step, locates, Option.map_some]
    refine ⟨_, rfl, mapped, ?_⟩
    intro entry inside
    cases List.mem_append.mp inside with
    | inl earlier =>
      exact (sound.logged entry earlier).imp_right fun ⟨index, line, placed⟩ =>
        ⟨index, line, placed.grows grows⟩
    | inr isLast =>
      cases List.mem_singleton.mp isLast
      exact placed

theorem exists_run {calls : List Call} (permitted : PermittedCalls calls) :
    ∃ state, Tables.run calls = some state ∧ Sound state := by
  induction calls using List.reverseRecOn with
  | nil => exact ⟨_, rfl, fun _ present => absurd rfl present, fun _ => nofun⟩
  | append_singleton calls call ih =>
    have ⟨state, runs, sound⟩ := ih fun before other after split =>
      permitted before other (after ++ [call]) (by rw [split, List.append_assoc]; rfl)
    have ⟨after, steps, afterSound⟩ := sound.step (permitted calls call [] rfl state runs)
    refine ⟨after, ?_, afterSound⟩
    rw [Tables.run] at runs ⊢
    rw [List.foldlM_append, runs]
    exact congrArg (· >>= pure) steps

/-- The locations of a run stay in its log. -/
theorem log_prefix (before after : List Call) {state : Tables × List Entry}
    (runs : Tables.run (before ++ after) = some state) :
    ∃ earlier, Tables.run before = some earlier ∧ earlier.2 <+: state.2 := by
  induction after using List.reverseRecOn generalizing state with
  | nil => exact ⟨state, by rwa [List.append_nil] at runs, List.prefix_rfl⟩
  | append_singleton after call ih =>
    rw [← List.append_assoc, Tables.run, List.foldlM_append] at runs
    have ⟨middle, middleRuns, last⟩ := Option.bind_eq_some_iff.mp runs
    have ⟨earlier, earlierRuns, isPrefix⟩ := ih middleRuns
    have ⟨final, steps, same⟩ := Option.bind_eq_some_iff.mp last
    cases same
    refine ⟨earlier, earlierRuns, isPrefix.trans ?_⟩
    cases call with
    | newSourceLocation source lineno start finish =>
      have ⟨located, _, same⟩ := Option.map_eq_some_iff.mp steps
      cases same
      exact List.prefix_append _ _
    | _ =>
      cases steps
      exact List.prefix_rfl

/-- In a run of permitted calls every location is none or stands for what was given for it,
and still does after the calls that follow. In another file a location keeps its line and its
columns, exactly when the index of that file fits. -/
theorem sourceLocations_decode {calls : List Call} (permitted : PermittedCalls calls)
    (location : BitVec 64) (newFileIndex : BitVec 32) :
    (∃ state, Tables.run calls = some state ∧
      (∀ entry ∈ state.2, entry.location = missing ∨ entry.Decodes state.1) ∧
      ∀ before after, calls = before ++ after →
        ∃ earlier, Tables.run before = some earlier ∧ earlier.2 <+: state.2) ∧
    (Remaps location newFileIndex ↔ ¬ IsReal location ∨ newFileIndex ≤ 0xffff) := by
  have ⟨state, runs, sound⟩ := exists_run permitted
  refine ⟨⟨state, runs, ?_, ?_⟩, remaps_iff location newFileIndex⟩
  · intro entry inside
    exact (sound.logged entry inside).imp_right fun ⟨_, _, placed⟩ => placed.decodes
  · rintro before after rfl
    exact log_prefix before after runs

/-- A token at the start of the third line of a file. -/
theorem sourceLocations_decode_example :
    ∃ state, Tables.run [.newSourceLocation { filename := "a.c" } 3 0 4] = some state ∧
      ∀ entry ∈ state.2, entry.location = missing ∨ entry.Decodes state.1 := by
  have permitted : PermittedCalls [.newSourceLocation { filename := "a.c" } 3 0 4] := by
    rintro before call after split state runs
    cases before with
    | nil =>
      cases split
      cases runs
      exact ⟨.inl rfl, fun _ _ => by decide, fun _ => by decide⟩
    | cons first before => cases (List.append_eq_nil_iff.mp (List.cons.inj split).2.symm).2
  have ⟨⟨state, runs, decodes, _⟩, _⟩ := sourceLocations_decode permitted 0 0
  exact ⟨state, runs, decodes⟩

/-- A token whose start has the bit that its field lacks. -/
theorem sourceLocation_at_top_bit :
    ∃ state entry, Tables.run [.newSourceLocation { filename := "a.c" } 1 32768 32768] =
        some state ∧ entry ∈ state.2 ∧ entry.location ≠ missing ∧ ¬ entry.Decodes state.1 := by
  refine ⟨_, _, rfl, List.mem_singleton.mpr rfl, by decide, ?_⟩
  intro decodes
  exact absurd decodes.decoded (by decide)

end DaveCC.Frontend.Locations
