import DaveCC.Debug.FileTables
import DaveCC.Debug.StatementProgram

/-!
# Decoding of `.debug_line`

The contents that an assembler builds from its registrations are read back: one row for
each location that was kept, the ends of the sequences, and the tables.
-/

namespace DaveCC.Debug

open DaveCC.Arith DaveCC.Container

theorem overwriteWord_between (before after : Bytes) (value next : Nat) :
    overwriteWord (before ++ (wordBytes 4 value ++ after)) before.length next =
      before ++ (wordBytes 4 next ++ after) := by
  rw [overwriteWord, List.take_left, List.drop_length_add_append,
    List.drop_left' (length_wordBytes 4 value), List.append_assoc]

/-- The fields between the second length and the tables. -/
def fieldBytes (dwarf : Dwarf) : Bytes :=
  [BitVec.ofNat 8 dwarf.minInstructionLength, 1, 1, dwarf.lineBase, dwarf.lineRange, 13] ++
    standardOpcodeLengths.map (BitVec.ofNat 8)

def tableBytes (dwarf : Dwarf) : Bytes :=
  directoryBytes dwarf ++ (dwarf.fileTable.flatMap fileBytes ++ [0])

/-- A unit whose lengths are those of its parts. -/
def layout (dwarf : Dwarf) (unitLength : Nat) (rest : Bytes) : Bytes :=
  wordBytes 4 unitLength ++ (wordBytes 2 4 ++
    (wordBytes 4 (18 + (tableBytes dwarf).length) ++ (fieldBytes dwarf ++ (tableBytes dwarf ++ rest))))

variable {dwarf : Dwarf} {unitLength : Nat} {program rest : Bytes}

theorem length_layout (dwarf : Dwarf) (unitLength : Nat) (rest : Bytes) :
    (layout dwarf unitLength rest).length = 28 + (tableBytes dwarf).length + rest.length := by
  simp only [layout, fieldBytes, standardOpcodeLengths, List.length_append, length_wordBytes,
    List.length_cons, List.length_nil, List.length_map]
  omega

theorem headerBytes_append (dwarf : Dwarf) (rest : Bytes) :
    headerBytes dwarf ++ rest = layout dwarf 0 rest := by
  have buffer : headerFields dwarf ++ directoryBytes dwarf ++ dwarf.fileTable.flatMap fileBytes ++
      [0] = (wordBytes 4 0 ++ wordBytes 2 4) ++
        (wordBytes 4 0 ++ (fieldBytes dwarf ++ tableBytes dwarf)) := by
    simp [headerFields, fieldBytes, tableBytes]
  have placed := overwriteWord_between (wordBytes 4 0 ++ wordBytes 2 4)
    (fieldBytes dwarf ++ tableBytes dwarf) 0 (18 + (tableBytes dwarf).length)
  have length : ((wordBytes 4 0 ++ wordBytes 2 4) ++
      (wordBytes 4 0 ++ (fieldBytes dwarf ++ tableBytes dwarf))).length - 10 =
        18 + (tableBytes dwarf).length := by
    simp only [fieldBytes, standardOpcodeLengths, List.length_append, length_wordBytes,
      List.length_cons, List.length_nil, List.length_map]
    omega
  rw [headerBytes, buffer, length]
  simp only [List.length_append, length_wordBytes] at placed
  rw [placed]
  simp only [layout, List.append_assoc]

theorem overwriteWord_layout (dwarf : Dwarf) (unitLength : Nat) (rest : Bytes) :
    overwriteWord (layout dwarf 0 rest) 0 unitLength = layout dwarf unitLength rest :=
  overwriteWord_between [] _ 0 unitLength

theorem layout_append (dwarf : Dwarf) (unitLength : Nat) (program padding : Bytes) :
    layout dwarf unitLength program ++ padding = layout dwarf unitLength (program ++ padding) := by
  simp [layout]

/-- The header of a unit. -/
def lineHeader (dwarf : Dwarf) : LineHeader where
  minimumInstructionLength := (BitVec.ofNat 8 dwarf.minInstructionLength).toNat
  lineBase := dwarf.lineBase.toInt
  lineRange := dwarf.lineRange.toNat
  opcodeBase := 13
  standardOpcodeLengths := standardOpcodeLengths

theorem readHeader_layout (dwarf : Dwarf) (unitLength : Nat) (rest : Bytes) :
    readHeader (layout dwarf unitLength rest) = some (lineHeader dwarf) := by
  rfl

/-- The lengths of a unit that a machine word holds. -/
theorem wordAt_layout (fits : unitLength < 2 ^ 32)
    (short : (tableBytes dwarf).length + 28 < 2 ^ 32) (rest : Bytes) :
    wordAt 4 (layout dwarf unitLength rest) 0 = some unitLength ∧
      wordAt 2 (layout dwarf unitLength rest) 4 = some 4 ∧
      wordAt 4 (layout dwarf unitLength rest) 6 = some (18 + (tableBytes dwarf).length) := by
  refine ⟨?_, ?_, ?_⟩
  · have read := wordAt_between 4 [] (wordBytes 2 4 ++ (wordBytes 4 (18 + (tableBytes dwarf).length) ++
      (fieldBytes dwarf ++ (tableBytes dwarf ++ rest)))) unitLength
    rw [Nat.mod_eq_of_lt (by omega)] at read
    exact read
  · have read := wordAt_between 2 (wordBytes 4 unitLength)
      (wordBytes 4 (18 + (tableBytes dwarf).length) ++
        (fieldBytes dwarf ++ (tableBytes dwarf ++ rest))) 4
    rwa [length_wordBytes] at read
  · have read := wordAt_between 4 (wordBytes 4 unitLength ++ wordBytes 2 4)
      (fieldBytes dwarf ++ (tableBytes dwarf ++ rest)) (18 + (tableBytes dwarf).length)
    rw [List.length_append, length_wordBytes, length_wordBytes, Nat.mod_eq_of_lt (by omega),
      List.append_assoc] at read
    exact read

/-- The rows of a unit whose program is instructions. -/
theorem readRows_layout {relocation : Nat → Option Nat} {rows : List LineRow} {last : LineRegisters}
    (runs : Runs (lineHeader dwarf) relocation (28 + (tableBytes dwarf).length) program {} rows last)
    (fits : 28 + (tableBytes dwarf).length + program.length < 2 ^ 32) (padding : Bytes) :
    readRows relocation
        (layout dwarf (24 + (tableBytes dwarf).length + program.length) (program ++ padding)) =
      some rows := by
  have front : layout dwarf (24 + (tableBytes dwarf).length + program.length)
      (program ++ padding) = layout dwarf (24 + (tableBytes dwarf).length + program.length) [] ++
        (program ++ padding) := by rw [layout_append, List.nil_append]
  have frontLength := length_layout dwarf (24 + (tableBytes dwarf).length + program.length) []
  rw [List.length_nil, Nat.add_zero] at frontLength
  have words := wordAt_layout
    (show 24 + (tableBytes dwarf).length + program.length < 2 ^ 32 by omega)
    (show (tableBytes dwarf).length + 28 < 2 ^ 32 by omega) (program ++ padding)
  have slice : ((layout dwarf (24 + (tableBytes dwarf).length + program.length)
      (program ++ padding)).take (4 + (24 + (tableBytes dwarf).length + program.length))).drop
        (10 + (18 + (tableBytes dwarf).length)) = program := by
    have taken : 4 + (24 + (tableBytes dwarf).length + program.length) =
        (layout dwarf (24 + (tableBytes dwarf).length + program.length) []).length +
          program.length := by omega
    have dropped : 10 + (18 + (tableBytes dwarf).length) =
        (layout dwarf (24 + (tableBytes dwarf).length + program.length) []).length := by omega
    rw [front, taken, dropped, List.take_length_add_append, List.take_left, List.drop_left]
  have whole := length_layout dwarf (24 + (tableBytes dwarf).length + program.length)
    (program ++ padding)
  have offset : 10 + (18 + (tableBytes dwarf).length) = 28 + (tableBytes dwarf).length := by omega
  rw [readRows]
  simp only [words, readHeader_layout, Option.bind_eq_bind, Option.bind_some, slice]
  rw [offset, runs.runProgram (Nat.le_refl _), whole]
  have large : 4 + (24 + (tableBytes dwarf).length + program.length) ≤
      28 + (tableBytes dwarf).length + (program.length + padding.length) := by omega
  simp [guard, large]

theorem length_flatMap_le {α : Type} {items : List α} {bytes : α → Bytes}
    (nonempty : ∀ item, 1 ≤ (bytes item).length) : items.length ≤ (items.flatMap bytes).length := by
  induction items with
  | nil => exact Nat.le_refl _
  | cons item items ih =>
    rw [List.flatMap_cons, List.length_append, List.length_cons]
    have one := nonempty item
    omega

theorem length_directories_le (dwarf : Dwarf) :
    dwarf.directoryTable.values.length ≤ (directoryBytes dwarf).length := by
  rw [directoryBytes, List.length_append]
  exact Nat.le_add_right_of_le (length_flatMap_le fun entry => by simp)

theorem length_tableBytes (dwarf : Dwarf) : (tableBytes dwarf).length =
    (directoryBytes dwarf).length + ((dwarf.fileTable.flatMap fileBytes).length + 1) := by
  simp [tableBytes]

/-- The tables as a decoder reads them. -/
def Dwarf.tables (dwarf : Dwarf) : LineTables where
  directories := dwarf.directoryTable.values.map Prod.fst
  files := dwarf.fileTable.map FileEntry.listed

/-- The tables of a unit, which end where the second length says. -/
theorem readTables_layout
    (directoryNames : ∀ entry ∈ dwarf.directoryTable.values, entry.1 ≠ [] ∧ 0 ∉ entry.1)
    (fileNames : ∀ file ∈ dwarf.fileTable, file.filename ≠ [] ∧ 0 ∉ file.filename)
    (unitLength : Nat) (rest : Bytes) :
    readTables (layout dwarf unitLength rest) =
      some (dwarf.tables, 28 + (tableBytes dwarf).length) := by
  have total := length_layout dwarf unitLength rest
  have directoriesFew := length_directories_le dwarf
  have filesFew : dwarf.fileTable.length ≤ (dwarf.fileTable.flatMap fileBytes).length :=
    length_flatMap_le fun file => by
      simp only [fileBytes, List.length_append, List.length_singleton]
      omega
  have tables := length_tableBytes dwarf
  have opcodeBase : (layout dwarf unitLength rest)[15]? = some 13 := by
    rfl
  have dropped : (layout dwarf unitLength rest).drop (15 + (13 : BitVec 8).toNat) =
      directoryBytes dwarf ++ (dwarf.fileTable.flatMap fileBytes ++ 0 :: rest) := by
    have tablesRest : tableBytes dwarf ++ rest =
        directoryBytes dwarf ++ (dwarf.fileTable.flatMap fileBytes ++ 0 :: rest) := by
      simp [tableBytes]
    rw [← tablesRest]
    rfl
  rw [readTables]
  simp only [opcodeBase, Option.bind_eq_bind, Option.bind_some, dropped]
  rw [readDirectories directoryNames (by omega), Option.bind_some,
    readFiles fileNames (by omega), Option.bind_some, total, Nat.add_sub_cancel]
  rfl

def Registration.path : Registration → Option FilePath
  | .file path => some path
  | .location _ => none

def Registration.loc : Registration → Option LocationEntry
  | .file _ => none
  | .location loc => some loc

/-- The locations without those that the next one replaces, at the same place. -/
def keptLocations : List LocationEntry → List LocationEntry
  | [] => []
  | [loc] => [loc]
  | loc :: next :: rest =>
    if loc.address = next.address ∧ loc.sectionIndex = next.sectionIndex then
      keptLocations (next :: rest)
    else loc :: keptLocations (next :: rest)

/-- The directories were first met in the order in which the map holds them. -/
def DirectoriesInOrder (paths : List FilePath) : Prop :=
  (directories paths).Pairwise fun first second => compareStrings first second = .lt

theorem getLast?_keptLocations (locations : List LocationEntry) :
    (keptLocations locations).getLast? = locations.getLast? := by
  induction locations using keptLocations.induct with
  | case1 => rfl
  | case2 loc => rfl
  | case3 loc next rest same ih =>
    rw [keptLocations, if_pos same, ih, List.getLast?_cons_cons]
  | case4 loc next rest apart ih =>
    rw [keptLocations, if_neg apart, List.getLast?_cons_cons, List.getLast?_cons, ih,
      List.getLast?_cons, Option.getD_some]

theorem keptLocations_ne_nil (loc : LocationEntry) (rest : List LocationEntry) :
    keptLocations (loc :: rest) ≠ [] := by
  intro empty
  have last := getLast?_keptLocations (loc :: rest)
  rw [empty, List.getLast?_cons] at last
  cases last

/-- One more location replaces the last one at the same place. -/
theorem keptLocations_concat (locations : List LocationEntry) (loc : LocationEntry) :
    keptLocations (locations ++ [loc]) =
      match locations.getLast? with
      | none => [loc]
      | some last =>
        if last.address = loc.address ∧ last.sectionIndex = loc.sectionIndex then
          (keptLocations locations).dropLast ++ [loc]
        else keptLocations locations ++ [loc] := by
  induction locations using keptLocations.induct with
  | case1 => rfl
  | case2 first => rfl
  | case3 first next rest same ih =>
    rw [List.cons_append, List.cons_append, keptLocations, if_pos same, keptLocations, if_pos same,
      List.getLast?_cons_cons]
    exact ih
  | case4 first next rest apart ih =>
    rw [List.cons_append, List.cons_append, keptLocations, if_neg apart, keptLocations, if_neg
      apart, List.getLast?_cons_cons, List.dropLast_cons_of_ne_nil (keptLocations_ne_nil next rest)]
    rw [List.cons_append] at ih
    rw [ih, List.getLast?_cons]
    simp only
    split <;> rfl

/-- `DwarfAddLocation` keeps the locations that no other one replaces. -/
theorem dwarfAddLocation_eq (dwarf : Dwarf) (records : List LocationEntry) (loc : LocationEntry)
    (kept : dwarf.locations = keptLocations records) :
    dwarfAddLocation dwarf loc = { dwarf with locations := keptLocations (records ++ [loc]) } := by
  rw [dwarfAddLocation, keptLocations_concat, kept, getLast?_keptLocations]
  cases last : records.getLast? with
  | none =>
    rw [List.getLast?_eq_none_iff.mp last]
    rfl
  | some previous =>
    simp only
    split
    · next same =>
      have replaced : { previous with file := loc.file, line := loc.line, col := loc.col } = loc := by
        rw [same.1, same.2]
      rw [replaced]
    · rfl

/-- What an assembler holds after registrations. -/
structure Assembled (byteInstructions : Bool) (registrations : List Registration) (dwarf : Dwarf) :
    Prop where
  registered : Registered (registrations.filterMap Registration.path) dwarf
  locations : dwarf.locations = keptLocations (registrations.filterMap Registration.loc)
  inFirstUse : DirectoriesInOrder (registrations.filterMap Registration.path) →
    InFirstUse (registrations.filterMap Registration.path) dwarf
  length : dwarf.minInstructionLength = if byteInstructions then 1 else 4

theorem dwarfAddFile_others (dwarf : Dwarf) (path : FilePath) :
    (dwarfAddFile dwarf path.bytes).locations = dwarf.locations ∧
      (dwarfAddFile dwarf path.bytes).minInstructionLength = dwarf.minInstructionLength := by
  rw [dwarfAddFile_eq]
  split
  · exact ⟨rfl, rfl⟩
  · split <;> exact ⟨rfl, rfl⟩

/-- The directories of fewer paths are in order too. -/
theorem DirectoriesInOrder.of_concat {paths : List FilePath} {path : FilePath}
    (ordered : DirectoriesInOrder (paths ++ [path])) : DirectoriesInOrder paths := by
  rw [DirectoriesInOrder, directories_concat] at ordered
  split at ordered
  · exact ordered
  · split at ordered
    · exact ordered
    · exact (List.pairwise_append.mp ordered).1

theorem assembled_init (byteInstructions : Bool) :
    Assembled byteInstructions [] (dwarfInit byteInstructions) where
  registered := ⟨.nil, fun _ impossible => (by cases impossible), rfl⟩
  locations := rfl
  inFirstUse := fun _ => ⟨rfl, rfl, .nil⟩
  length := rfl

theorem Assembled.register {byteInstructions : Bool} {registrations : List Registration}
    (assembled : Assembled byteInstructions registrations dwarf) (registration : Registration) :
    Assembled byteInstructions (registrations ++ [registration]) (register dwarf registration) := by
  cases registration with
  | file path =>
    have paths : (registrations ++ [Registration.file path]).filterMap Registration.path =
        registrations.filterMap Registration.path ++ [path] := by
      rw [List.filterMap_append]
      rfl
    have locations : (registrations ++ [Registration.file path]).filterMap Registration.loc =
        registrations.filterMap Registration.loc := by
      rw [List.filterMap_append]
      exact List.append_nil _
    constructor
    · rw [paths]
      exact assembled.registered.dwarfAddFile path
    · rw [locations]
      exact (dwarfAddFile_others dwarf path).1.trans assembled.locations
    · rw [paths]
      intro ordered
      exact (assembled.inFirstUse ordered.of_concat).dwarfAddFile path
        assembled.registered.sorted ordered
    · exact (dwarfAddFile_others dwarf path).2.trans assembled.length
  | location loc =>
    have paths : (registrations ++ [Registration.location loc]).filterMap Registration.path =
        registrations.filterMap Registration.path := by
      rw [List.filterMap_append]
      exact List.append_nil _
    have locations : (registrations ++ [Registration.location loc]).filterMap Registration.loc =
        registrations.filterMap Registration.loc ++ [loc] := by
      rw [List.filterMap_append]
      rfl
    rw [Debug.register, dwarfAddLocation_eq dwarf _ loc assembled.locations]
    constructor
    · rw [paths]
      exact ⟨assembled.registered.sorted, assembled.registered.keys, assembled.registered.names⟩
    · rw [locations]
    · rw [paths]
      intro ordered
      have inFirstUse := assembled.inFirstUse ordered
      exact ⟨inFirstUse.table, inFirstUse.next, inFirstUse.files⟩
    · exact assembled.length

theorem assembled_foldl (byteInstructions : Bool) (registrations : List Registration) :
    Assembled byteInstructions registrations
      (registrations.foldl register (dwarfInit byteInstructions)) := by
  induction registrations using List.reverseRecOn with
  | nil => exact assembled_init byteInstructions
  | append_singleton registrations registration ih =>
    rw [List.foldl_concat]
    exact ih.register registration

/-! ## Decoding -/

/-- A row, or nothing for the end of a sequence. -/
def LineRow.visible (row : LineRow) : Option LineRow :=
  if row.endSequence then none else some row

/-- The row of every location, and the end of every sequence after its last row. -/
def sequenceRows : List LocationEntry → List (Option LineRow)
  | [] => []
  | [loc] => [some loc.row, none]
  | loc :: next :: rest =>
    if newSequence (some loc) next then some loc.row :: none :: sequenceRows (next :: rest)
    else some loc.row :: sequenceRows (next :: rest)

theorem visible_locationRows (loc : LocationEntry) (rest : List LocationEntry) :
    some loc.row :: (locationRows (some loc) rest).map LineRow.visible =
      sequenceRows (loc :: rest) := by
  induction rest generalizing loc with
  | nil => rfl
  | cons next rest ih =>
    rw [locationRows, List.map_append, List.map_cons, sequenceRows, ← ih next, endRows]
    split <;> rfl

/-- Contents that a decoder reads: the rows of the locations and the ends of the sequences,
the lengths, and the tables. The paths of the files follow from the tables when the
directories are in order. -/
structure DecodesTo (contents : LineContents) (paths : List FilePath)
    (locations : List LocationEntry) : Prop where
  rows : ∃ rows,
    readRows (fun offset => contents.addressFixups.lookup offset) contents.bytes = some rows ∧
      rows.map LineRow.visible = sequenceRows locations
  unitLength : ∃ unitLength, wordAt 4 contents.bytes 0 = some unitLength ∧
    contents.bytes.length = alignUp (4 + unitLength) 8
  tables : (∀ path ∈ paths, path.directory ≠ some []) → ∃ tables headerLength,
    wordAt 4 contents.bytes 6 = some headerLength ∧
      readTables contents.bytes = some (tables, 10 + headerLength) ∧
      tables.files.map Prod.fst = paths.map FilePath.basename ∧
      (DirectoriesInOrder paths →
        tables.files.map tables.path = paths.map fun path => some path.bytes)

/-- The contents as the header and the program, with the padding after them. -/
theorem build_layout {code : Bytes} (split : (unitContents dwarf).bytes = headerBytes dwarf ++ code) :
    ∃ padding, (dwarfBuildDebugLineContents dwarf).bytes =
        layout dwarf (24 + (tableBytes dwarf).length + code.length) (code ++ padding) ∧
      (dwarfBuildDebugLineContents dwarf).bytes.length =
        alignUp (28 + (tableBytes dwarf).length + code.length) 8 := by
  have whole := headerBytes_append dwarf code
  have length := length_layout dwarf 0 code
  have unitLength : 28 + (tableBytes dwarf).length + code.length - 4 =
      24 + (tableBytes dwarf).length + code.length := by omega
  refine ⟨List.replicate (alignUp (28 + (tableBytes dwarf).length + code.length) 8 -
    (28 + (tableBytes dwarf).length + code.length)) 0, ?_, ?_⟩
  · rw [dwarfBuildDebugLineContents]
    simp only [split, whole, length, overwriteWord_layout, layout_append, unitLength]
  · rw [dwarfBuildDebugLineContents]
    simp only [split, whole, length, overwriteWord_layout, List.length_append,
      List.length_replicate]
    rw [length_layout]
    have above := le_alignUp (28 + (tableBytes dwarf).length + code.length) 8
    omega

theorem mem_keptLocations {locations : List LocationEntry} {loc : LocationEntry}
    (kept : loc ∈ keptLocations locations) : loc ∈ locations := by
  induction locations using keptLocations.induct with
  | case1 => exact kept
  | case2 first => exact kept
  | case3 first next rest same ih =>
    rw [keptLocations, if_pos same] at kept
    exact List.mem_cons_of_mem _ (ih kept)
  | case4 first next rest apart ih =>
    rw [keptLocations, if_neg apart] at kept
    rcases List.mem_cons.mp kept with rfl | kept
    · exact List.mem_cons_self
    · exact List.mem_cons_of_mem _ (ih kept)

/-- The program of the contents is instructions that append the rows of the locations. -/
theorem exists_program
    (length : (lineHeader dwarf).minimumInstructionLength = dwarf.minInstructionLength)
    (addresses : ∀ loc ∈ dwarf.locations, Representable dwarf.minInstructionLength loc.address) :
    ∃ code last, (unitContents dwarf).bytes = headerBytes dwarf ++ code ∧
      Runs (lineHeader dwarf) (fun offset => (unitContents dwarf).addressFixups.lookup offset)
        (28 + (tableBytes dwarf).length) code {} (locationRows none dwarf.locations) last := by
  have standard : (lineHeader dwarf).Standard := show 6 ≤ 13 by decide
  have start : Placed (LineContents.mk (headerBytes dwarf) []) :=
    ⟨.nil, fun _ impossible => by cases impossible⟩
  have placed : Placed (dwarf.locations.foldl (emitLocation dwarf.minInstructionLength)
      { contents := LineContents.mk (headerBytes dwarf) [] }).contents := Placed.foldl start
  have tracks : Tracks { contents := LineContents.mk (headerBytes dwarf) [] } {} := ⟨rfl, rfl, rfl⟩
  have relocates : Relocates (fun offset => (unitContents dwarf).addressFixups.lookup offset)
      (dwarf.locations.foldl (emitLocation dwarf.minInstructionLength)
        { contents := LineContents.mk (headerBytes dwarf) [] }).contents := by
    rw [unitContents, finish_addressFixups]
    exact placed.relocates
  rcases foldl_emits standard length tracks relocates (fun _ impossible => by cases impossible)
    addresses with ⟨last, code, split, runs⟩
  have headerLength := length_layout dwarf 0 []
  rw [← headerBytes_append, List.append_nil, List.length_nil, Nat.add_zero] at headerLength
  rw [headerLength] at runs
  exact ⟨code, last, split, runs⟩

theorem Resolves.paths {known : List Bytes} {files : List FileEntry} {paths : List FilePath}
    (resolves : List.Forall₂ (Resolves known) files paths) (few : known.length < 2 ^ 32)
    (listed : List (Bytes × Nat)) :
    (files.map FileEntry.listed).map (LineTables.path ⟨known, listed⟩) =
      paths.map fun path => some path.bytes := by
  induction resolves with
  | nil => rfl
  | cons first _ ih => rw [List.map_cons, List.map_cons, List.map_cons, first.path few, ih]

/-- The tables of the contents. -/
theorem Registered.tables {paths : List FilePath} (registered : Registered paths dwarf)
    (noRoot : ∀ path ∈ paths, path.directory ≠ some []) (unitLength : Nat) (rest : Bytes) :
    readTables (layout dwarf unitLength rest) =
      some (dwarf.tables, 28 + (tableBytes dwarf).length) := by
  apply readTables_layout
  · intro entry listed
    rcases registered.keys entry listed with ⟨path, inside, own⟩
    constructor
    · intro empty
      exact noRoot path inside (empty ▸ own)
    · exact FilePath.terminated_directory own
  · intro file listed
    have named : file.filename ∈ paths.map FilePath.basename :=
      registered.names ▸ List.mem_map_of_mem listed
    rcases List.mem_map.mp named with ⟨path, _, own⟩
    rw [← own]
    exact ⟨FilePath.basename_ne_nil, FilePath.terminated_basename⟩

/-- What is decoded of the contents of an assembler. -/
theorem Assembled.decodes {byteInstructions : Bool} {registrations : List Registration}
    (assembled : Assembled byteInstructions registrations dwarf) (addresses : ∀ loc ∈
      registrations.filterMap Registration.loc, Representable dwarf.minInstructionLength
      loc.address) (small : (dwarfBuildDebugLineContents dwarf).bytes.length < 2 ^ 32) :
    DecodesTo (dwarfBuildDebugLineContents dwarf) (registrations.filterMap Registration.path)
      (keptLocations (registrations.filterMap Registration.loc)) := by
  have length : (lineHeader dwarf).minimumInstructionLength = dwarf.minInstructionLength := by
    rw [lineHeader, assembled.length]
    cases byteInstructions <;> rfl
  rcases exists_program length
    (by
      rw [assembled.locations]
      exact fun loc kept => addresses loc (mem_keptLocations kept)) with
    ⟨code, last, split, runs⟩
  rcases build_layout split with ⟨padding, bytes, whole⟩
  have above := le_alignUp (28 + (tableBytes dwarf).length + code.length) 8
  have fits : 28 + (tableBytes dwarf).length + code.length < 2 ^ 32 := by omega
  have words := wordAt_layout (show 24 + (tableBytes dwarf).length + code.length < 2 ^ 32 by omega)
    (show (tableBytes dwarf).length + 28 < 2 ^ 32 by omega) (code ++ padding)
  constructor
  · refine ⟨locationRows none dwarf.locations, ?_, ?_⟩
    · rw [bytes]
      exact readRows_layout runs fits padding
    · rw [← assembled.locations]
      cases dwarf.locations with
      | nil => rfl
      | cons loc rest => exact visible_locationRows loc rest
  · refine ⟨_, by rw [bytes]; exact words.1, ?_⟩
    rw [whole]
    congr 1
    omega
  · intro noRoot
    have tables := assembled.registered.tables noRoot
      (24 + (tableBytes dwarf).length + code.length) (code ++ padding)
    have ends : 10 + (18 + (tableBytes dwarf).length) = 28 + (tableBytes dwarf).length := by omega
    refine ⟨dwarf.tables, 18 + (tableBytes dwarf).length, by rw [bytes]; exact words.2.2, ?_, ?_, ?_⟩
    · rw [bytes, tables, ends]
    · rw [Dwarf.tables, List.map_map]
      exact assembled.registered.names
    · intro ordered
      have inFirstUse := assembled.inFirstUse ordered
      have known : dwarf.directoryTable.values.map Prod.fst =
          directories (registrations.filterMap Registration.path) := by
        rw [inFirstUse.table]
        apply List.ext_getElem?
        intro index
        rw [List.getElem?_map, List.getElem?_mapIdx, Option.map_map]
        exact congrFun Option.map_id _
      have few : (directories (registrations.filterMap Registration.path)).length < 2 ^ 32 := by
        have fewer := length_directories_le dwarf
        have parts := length_tableBytes dwarf
        rw [← known, List.length_map]
        omega
      rw [Dwarf.tables, known]
      exact Resolves.paths inFirstUse.files few _

/-- The contents that an assembler builds after registrations. -/
def debugLine (byteInstructions : Bool) (registrations : List Registration) : LineContents :=
  dwarfBuildDebugLineContents (registrations.foldl register (dwarfInit byteInstructions))

/-- The contents are read back: one row for each location that no other one replaces. -/
theorem debugLine_decodes (byteInstructions : Bool) (registrations : List Registration)
    (addresses : ∀ loc ∈ registrations.filterMap Registration.loc,
      Representable (if byteInstructions then 1 else 4) loc.address)
    (small : (debugLine byteInstructions registrations).bytes.length < 2 ^ 32) :
    DecodesTo (debugLine byteInstructions registrations) (registrations.filterMap Registration.path)
      (keptLocations (registrations.filterMap Registration.loc)) := by
  have assembled := assembled_foldl byteInstructions registrations
  apply assembled.decodes _ small
  rw [assembled.length]
  exact addresses

/-- A file in a directory, and a location at the start of a section. -/
def oneLocation : List Registration :=
  [.file ⟨[97, 47, 98], by decide, by decide, by decide⟩,
    .location { file := 1, line := 7, col := 3, sectionIndex := 2, address := 8 }]

theorem debugLine_decodes_oneLocation :
    DecodesTo (debugLine false oneLocation) (oneLocation.filterMap Registration.path)
      [{ file := 1, line := 7, col := 3, sectionIndex := 2, address := 8 }] :=
  debugLine_decodes false oneLocation (by decide) (by decide)

/-- What a decoder should read: a row for every location, ends after the code of the last
rows, exact lengths, and the path of every file. -/
structure DecodesExactly (contents : LineContents) (paths : List FilePath)
    (locations : List LocationEntry) : Prop where
  rows : ∃ rows,
    readRows (fun offset => contents.addressFixups.lookup offset) contents.bytes = some rows ∧
      rows.filterMap LineRow.visible = locations.map LocationEntry.row ∧
      ∀ front row last back, rows = front ++ row :: last :: back → row.endSequence = false →
        last.endSequence = true → row.address < last.address
  unitLength : ∃ unitLength, wordAt 4 contents.bytes 0 = some unitLength ∧
    contents.bytes.length = 4 + unitLength
  tables : ∃ tables headerLength, wordAt 4 contents.bytes 6 = some headerLength ∧
    readTables contents.bytes = some (tables, 10 + headerLength) ∧
    tables.files.map tables.path = paths.map fun path => some path.bytes

/-- Two locations at one address. -/
def replacedLocation : List Registration :=
  oneLocation ++ [.location { file := 1, line := 8, col := 1, sectionIndex := 2, address := 8 }]

/-- Two directories that are met in the other order than the one of the map. -/
def reversedDirectories : List Registration :=
  [.file ⟨[98, 47, 120], by decide, by decide, by decide⟩,
    .file ⟨[97, 47, 121], by decide, by decide, by decide⟩]

/-- A file in the root directory, whose empty name ends the table of directories. -/
def rootDirectory : List Registration :=
  [.file ⟨[47, 120], by decide, by decide, by decide⟩]

/-- One of two locations at one address is lost. Directories in another order change the
paths, a file in the root directory empties the table, and the padding is not counted. -/
theorem not_debugLine_decodesExactly :
    (¬∀ byteInstructions registrations, DecodesExactly (debugLine byteInstructions registrations)
      (registrations.filterMap Registration.path) (registrations.filterMap Registration.loc)) ∧
    ((readTables (debugLine false reversedDirectories).bytes).map fun read =>
      read.1.files.map read.1.path) = some [some [97, 47, 120], some [98, 47, 121]] ∧
    ((readTables (debugLine false rootDirectory).bytes).map fun read => read.1.files) = some [] ∧
    wordAt 4 (debugLine false oneLocation).bytes 0 = some 54 ∧
    (debugLine false oneLocation).bytes.length = 64 := by
  refine ⟨?_, by decide +kernel, by decide +kernel, by decide +kernel, by decide +kernel⟩
  intro exactly
  rcases (exactly false replacedLocation).rows with ⟨rows, reads, visible, _⟩
  have same : readRows (fun offset => (debugLine false replacedLocation).addressFixups.lookup offset)
      (debugLine false replacedLocation).bytes =
        some [{ base := some 2, address := 8, file := 1, line := 8, column := 1 },
          { base := some 2, address := 8, file := 1, line := 8, column := 1,
            endSequence := true }] := by decide +kernel
  rw [same] at reads
  cases reads
  revert visible
  decide

end DaveCC.Debug
