import DaveCC.Archive.ArchiveReading

/-!
# Archives round-trip

When an archive that was written is read back as the members and symbols it was built of. The
condition is exact: the archive has symbols or writes no file, no deleted file precedes one
that is written, every number fits its field, and the symbols of one name are of one file
whose offset is an `int`.
-/

namespace DaveCC.Archive

open Container

/-- A file is read back as it was added, at the offset that was computed for it. -/
structure Recovers (image : Bytes) (file : ARFile) (read : ReadFile) : Prop where
  filename : read.filename = file.filename.chars
  size : read.size = file.contents.length
  owner : read.owner = file.owner
  group : read.group = file.group
  mode : read.mode = file.mode
  timestamp : read.timestamp = file.timestamp
  contents : (image.drop read.fileOffset).take file.contents.length = file.contents
  position : read.fileOffset = file.fileOffset + headerSize

/-- A member is read back: of a special one, its name and its size. -/
def Member.Recovered (image : Bytes) (read : ReadFile) : Member → Prop
  | .special entry => read.filename = entry.name ∧ read.size = entry.contents.length
  | .file archived => Recovers image archived read

/-- The index of a file among the members that are written. -/
def memberIndex (builder : ARArchiveBuilder) (now : ℤ) (file : ℕ) : ℕ :=
  (specialEntries builder now).length + (surviving ((preparedFiles builder).take file)).length

/-- An archive that was read has the members and the symbols of the builder. -/
structure ReadsBack (builder : ARArchiveBuilder) (now : ℤ) (image : Bytes) (archive : ARArchive) :
    Prop where
  members : List.Forall₂ (fun member read => member.Recovered image read)
    (archiveMembers builder now) archive.files
  symbols : ∀ symbol ∈ survivingSymbols builder,
    (archive.findSymbol symbol.name.chars).map ReadSymbol.file =
      some (memberIndex builder now symbol.file)
  others : ∀ name, (∀ symbol ∈ survivingSymbols builder, symbol.name.chars ≠ name) →
    archive.findSymbol name = none

/-- The archive is written, and opening the file reads back what was written. -/
def RoundTrips (builder : ARArchiveBuilder) (now : ℤ) : Prop :=
  ∃ image fuel archive, write builder now = some image ∧ openArchive image fuel = some archive ∧
    ReadsBack builder now image archive

/-- The name and the numbers of a file can be recorded in its header. -/
structure Recordable (file : ARFile) : Prop where
  filename : file.filename.chars ≠ []
  size : file.contents.length < 10 ^ 9
  owner : 0 ≤ file.owner ∧ file.owner < 10 ^ 5
  group : 0 ≤ file.group ∧ file.group < 10 ^ 5
  mode : 0 ≤ file.mode ∧ file.mode < 10 ^ 7
  timestamp : 0 ≤ file.timestamp ∧ file.timestamp < 10 ^ 11

/-- The condition under which an archive round-trips. -/
structure Writable (builder : ARArchiveBuilder) (now : ℤ) : Prop where
  inPlace : WrittenInPlace builder
  recordable : ∀ file ∈ builder.files, file.deleted = false → Recordable file
  clock : specialEntries builder now ≠ [] → -10 ^ 11 < now ∧ now < 10 ^ 12
  table : builder.symbols.length ≠ 0 → symbolTableLength builder < 10 ^ 9
  names : (longFilenames builder.files).length ≠ 0 → nextLongFilenameOffset builder.files < 10 ^ 9
  agree : ∀ symbol ∈ survivingSymbols builder, ∀ other ∈ survivingSymbols builder,
    symbol.name.chars = other.name.chars → symbol.file = other.file
  near : ∀ symbol ∈ survivingSymbols builder, symbolOffset (preparedFiles builder) symbol < 2 ^ 31

/-- A file without the offsets that are computed. -/
def ARFile.core (file : ARFile) : ARFile :=
  { file with fileOffset := 0, extendedFilenameOffset := 0 }

theorem map_core_prepareExtendedFilenames (offset : ℕ) (files : List ARFile) :
    (prepareExtendedFilenames offset files).map ARFile.core = files.map ARFile.core := by
  induction files generalizing offset with
  | nil => rfl
  | cons file files ih =>
    rw [prepareExtendedFilenames]
    split
    · rw [List.map_cons, List.map_cons, ih]
      rfl
    · rw [List.map_cons, List.map_cons, ih]

theorem map_core_calculateFileOffsets (offset : ℕ) (files : List ARFile) :
    (calculateFileOffsets offset files).map ARFile.core = files.map ARFile.core := by
  induction files generalizing offset with
  | nil => rfl
  | cons file files ih =>
    rw [calculateFileOffsets, List.map_cons, List.map_cons, ih]
    rfl

/-- Preparing changes nothing but the offsets. -/
theorem map_core_preparedFiles (builder : ARArchiveBuilder) :
    (preparedFiles builder).map ARFile.core = builder.files.map ARFile.core := by
  rw [preparedFiles, map_core_calculateFileOffsets, map_core_prepareExtendedFilenames]

/-- What does not depend on the offsets holds of the files that are written when it holds of
the files that are not deleted. -/
theorem forall_surviving {Holds : ARFile → Prop} (same : ∀ file, Holds file.core ↔ Holds file)
    (builder : ARArchiveBuilder) :
    (∀ file ∈ surviving (preparedFiles builder), Holds file) ↔
      ∀ file ∈ builder.files, file.deleted = false → Holds file := by
  have cores (files : List ARFile) : (∀ file ∈ files, file.deleted = false → Holds file) ↔
      ∀ core ∈ files.map ARFile.core, core.deleted = false → Holds core := by
    rw [List.forall_mem_map]
    simp only [same]
    rfl
  rw [cores, ← map_core_preparedFiles, ← cores]
  constructor
  · intro all file inside survives
    exact all file (List.mem_filter.mpr ⟨inside, by rw [survives]; rfl⟩)
  · intro all file inside
    have isSurviving := List.mem_filter.mp inside
    exact all file isSurviving.1 (by simpa using isSurviving.2)

variable {symbol : ARSymbol}

/-- The file of a surviving symbol is written. -/
theorem exists_prepared {builder : ARArchiveBuilder} (inside : symbol ∈ survivingSymbols builder) :
    ∃ file, (preparedFiles builder)[symbol.file]? = some file ∧ file.deleted = false := by
  have isSurviving := List.mem_filter.mp inside
  have ⟨original, isFile⟩ : ∃ original, builder.files[symbol.file]? = some original :=
    ⟨_, List.getElem?_eq_getElem (builder.inFiles symbol isSurviving.1)⟩
  have same := congrArg (fun files : List ARFile => files[symbol.file]?)
    (map_core_preparedFiles builder)
  rw [List.getElem?_map, List.getElem?_map, isFile, Option.map_some, Option.map_eq_some_iff] at same
  rcases same with ⟨file, isPrepared, sameCore⟩
  refine ⟨file, isPrepared, ?_⟩
  have survives := isSurviving.2
  rw [isDeleted, isFile] at survives
  rw [show file.deleted = file.core.deleted from rfl, sameCore]
  change original.deleted = false
  simpa using survives

variable {index : ℕ} {file : ARFile}

/-- A file that is not deleted is among those that are written, after those before it. -/
theorem getElem?_surviving {files : List ARFile} (found : files[index]? = some file)
    (survives : file.deleted = false) :
    (surviving files)[(surviving (files.take index)).length]? = some file := by
  rcases List.getElem?_eq_some_iff.mp found with ⟨inside, isFile⟩
  have split : surviving files =
      surviving (files.take index) ++ file :: surviving (files.drop (index + 1)) := by
    conv => lhs; rw [← List.take_append_drop index files, List.drop_eq_getElem_cons inside, isFile]
    rw [surviving, List.filter_append, ← surviving, ← surviving, surviving_surviving survives]
  rw [split, List.getElem?_append_right le_rfl, Nat.sub_self]
  rfl

theorem length_surviving_take_lt {files : List ARFile} {later : ℕ}
    (found : files[index]? = some file) (survives : file.deleted = false) (before : index < later) :
    (surviving (files.take index)).length < (surviving (files.take later)).length := by
  have inside : (files.take later)[index]? = some file := by
    rw [List.getElem?_take_of_lt before, found]
  have isSurviving := getElem?_surviving inside survives
  rw [List.take_take, Nat.min_eq_left (Nat.le_of_lt before)] at isSurviving
  exact (List.getElem?_eq_some_iff.mp isSurviving).1

/-- Surviving symbols of one member are of one file. -/
theorem file_eq_of_memberIndex {builder : ARArchiveBuilder} {now : ℤ} {other : ARSymbol}
    (first : symbol ∈ survivingSymbols builder) (second : other ∈ survivingSymbols builder)
    (same : memberIndex builder now symbol.file = memberIndex builder now other.file) :
    symbol.file = other.file := by
  rcases exists_prepared first with ⟨file, isFile, survives⟩
  rcases exists_prepared second with ⟨otherFile, isOther, otherSurvives⟩
  rw [memberIndex, memberIndex, Nat.add_left_cancel_iff] at same
  rcases Nat.lt_trichotomy symbol.file other.file with before | equal | after
  · exact absurd same (Nat.ne_of_lt (length_surviving_take_lt isFile survives before))
  · exact equal
  · exact absurd same.symm (Nat.ne_of_lt (length_surviving_take_lt isOther otherSurvives after))

/-- The header of the file of a surviving symbol starts at the offset of the symbol. -/
theorem startsAt_memberIndex {builder : ARArchiveBuilder} {now : ℤ}
    (placed : PlacedAt (firstPosition builder now) (surviving (preparedFiles builder)))
    (inside : symbol ∈ survivingSymbols builder) :
    (startsAt 8 (archiveEntries builder now))[memberIndex builder now symbol.file]? =
      some (symbolOffset (preparedFiles builder) symbol) := by
  rcases exists_prepared inside with ⟨file, isFile, survives⟩
  have start : 8 + (entriesBytes (specialEntries builder now)).length =
      firstPosition builder now := by
    rw [firstPosition, List.length_append]
    rfl
  rw [archiveEntries, startsAt_append, start, startsAt_files placed, memberIndex,
    List.getElem?_append_right (by rw [length_startsAt]; exact Nat.le_add_right _ _),
    length_startsAt, Nat.add_sub_cancel_left, List.getElem?_map,
    getElem?_surviving isFile survives, symbolOffset, isFile]
  rfl

/-! ## Symbols -/

variable {start : ℕ}

/-- What `ReadSymbolTable` makes of a table whose size fits its field. -/
theorem readSymbolTable_eq {builder : ARArchiveBuilder} {image rest : Bytes}
    (there : image.drop start = symbolTableContents builder ++ rest)
    (small : symbolTableLength builder < 10 ^ 9) (archive : ARArchive) :
    readSymbolTable image archive start =
      ((survivingSymbols builder).mapM fun symbol => archive.fileOffsets.find compare
        (toInt32 (symbolOffset (preparedFiles builder) symbol))).map fun files =>
          archive.insertSymbols (List.zipWith (fun symbol file => ⟨symbol.name.chars, file⟩)
            (survivingSymbols builder) files) := by
  have count : 5 * (survivingSymbols builder).length ≤ symbolTableLength builder := by
    rw [symbolTableLength_eq]
    induction survivingSymbols builder with
    | nil => exact Nat.zero_le _
    | cons symbol symbols ih =>
      rw [List.length_cons, List.map_cons, List.sum_cons]
      omega
  have exact32 : toInt32 ((survivingSymbols builder).length : ℤ) =
      (survivingSymbols builder).length := toInt32_natCast.mpr (by omega)
  rw [readSymbolTable, there, symbolTableContents, List.append_assoc, List.append_assoc,
    readBigEndianInt_append]
  simp only [exact32, Int.toNat_natCast]
  rw [readSymbolFiles_append]
  cases found : (survivingSymbols builder).mapM fun symbol => archive.fileOffsets.find compare
      (toInt32 (symbolOffset (preparedFiles builder) symbol)) with
  | none => rfl
  | some files =>
    have length := (mapM_eq_some_iff.mp found).length_eq
    simp only [Option.map_some, Option.bind_eq_bind, Option.bind_some]
    rw [readSymbolNames_append length.symm]
    rfl

variable {archive : ARArchive}

/-- A name is found with the first symbol that has it. -/
theorem findSymbol_insertSymbols (emptyTable : archive.symbolTable = .init 1009)
    (symbols : List ReadSymbol) (name : Bytes) :
    (archive.insertSymbols symbols).findSymbol name =
      symbols.find? fun symbol => symbol.name = name := by
  have nonempty : (HashTable.init 1009 : HashTable ReadSymbol).entries ≠ [] :=
    List.ne_nil_of_length_pos (by rw [HashTable.init, List.length_replicate]; decide)
  change HashTable.search _ _ _ (symbols.foldl _ archive.symbolTable) = _
  rw [emptyTable, HashTable.search_foldl_insert nonempty, HashTable.search_init, Option.none_or]

/-- The symbols of a name are found with their file, when it is the same for all of them. -/
theorem find?_symbols {symbols : List ARSymbol} {index : ℕ → ℕ}
    (agree : ∀ symbol ∈ symbols, ∀ other ∈ symbols, symbol.name.chars =
      other.name.chars → symbol.file = other.file) (inside : symbol ∈ symbols) :
    ((symbols.map fun symbol => (⟨symbol.name.chars, index symbol.file⟩ : ReadSymbol)).find?
      fun read => read.name = symbol.name.chars).map ReadSymbol.file = some (index symbol.file) := by
  rw [List.find?_map, Option.map_map]
  cases found : symbols.find?
      ((fun read : ReadSymbol => decide (read.name = symbol.name.chars)) ∘
        fun symbol => ⟨symbol.name.chars, index symbol.file⟩) with
  | none =>
    have missing := List.find?_eq_none.mp found symbol inside
    exact absurd (decide_eq_true rfl) missing
  | some first =>
    have isName := List.find?_some found
    have isFirst := List.mem_of_find?_eq_some found
    exact congrArg (fun file => some (index file))
      (agree first isFirst symbol inside (of_decide_eq_true isName))

section Lookups

variable {builder : ARArchiveBuilder} {now : ℤ} {map : SortedMap ℤ ℕ}
variable (indexed : Indexed map (startsAt 8 (archiveEntries builder now)))
variable (placed : PlacedAt (firstPosition builder now) (surviving (preparedFiles builder)))

include indexed placed

/-- Symbols whose offsets are `int`s, and whose names are of one file each, are found. -/
theorem find_symbols
    (near : ∀ symbol ∈ survivingSymbols builder, symbolOffset (preparedFiles builder) symbol < 2 ^
      31) :
    (survivingSymbols builder).mapM (fun symbol => map.find compare
        (toInt32 (symbolOffset (preparedFiles builder) symbol))) =
      some ((survivingSymbols builder).map fun symbol => memberIndex builder now symbol.file) := by
  rw [mapM_eq_some_iff, List.forall₂_map_right_iff, List.forall₂_same]
  intro symbol inside
  rw [toInt32_natCast.mpr (near symbol inside), indexed.find]
  exact ⟨_, startsAt_memberIndex placed inside, rfl⟩

/-- When every symbol is found with its member, the offsets are `int`s and the names are of
one file each. -/
theorem agree_and_near {files : List ℕ}
    (found : (survivingSymbols builder).mapM (fun symbol => map.find compare (toInt32
      (symbolOffset (preparedFiles builder) symbol))) = some files)
    (right : ∀ symbol ∈ survivingSymbols builder, (((List.zipWith (fun symbol file =>
      (⟨symbol.name.chars, file⟩ : ReadSymbol)) (survivingSymbols builder) files).find? fun read
      => read.name = symbol.name.chars).map ReadSymbol.file) =
      some (memberIndex builder now symbol.file)) :
    (∀ symbol ∈ survivingSymbols builder, ∀ other ∈ survivingSymbols builder,
      symbol.name.chars = other.name.chars → symbol.file = other.file) ∧
    ∀ symbol ∈ survivingSymbols builder,
      symbolOffset (preparedFiles builder) symbol < 2 ^ 31 := by
  have agree : ∀ symbol ∈ survivingSymbols builder, ∀ other ∈ survivingSymbols builder,
      symbol.name.chars = other.name.chars → symbol.file = other.file := by
    intro symbol first other second sameName
    have sameMember := right other second
    rw [← sameName, right symbol first] at sameMember
    exact file_eq_of_memberIndex first second (Option.some.inj sameMember)
  refine ⟨agree, ?_⟩
  intro symbol inside
  rcases Option.map_eq_some_iff.mp (right symbol inside) with ⟨read, isFound, isMember⟩
  have isName := of_decide_eq_true (List.find?_some
    (p := fun read : ReadSymbol => decide (read.name = symbol.name.chars)) isFound)
  have isRead := List.mem_of_find?_eq_some isFound
  rw [← List.map_uncurry_zip_eq_zipWith] at isRead
  rcases List.mem_map.mp isRead with ⟨⟨source, file⟩, paired, rfl⟩
  have isSource := (List.of_mem_zip paired).1
  have sameFile := agree source isSource symbol inside isName
  have isOffset := List.forall₂_zip (mapM_eq_some_iff.mp found) paired
  rcases (indexed.find _ _).mp isOffset with ⟨start, isStart, isCast⟩
  have isPlace := startsAt_memberIndex placed inside
  have sameOffset : symbolOffset (preparedFiles builder) source =
      symbolOffset (preparedFiles builder) symbol := by
    rw [symbolOffset, symbolOffset, sameFile]
  change file = memberIndex builder now symbol.file at isMember
  rw [isMember, isPlace] at isStart
  rw [← Option.some.inj isStart, sameOffset] at isCast
  exact toInt32_natCast.mp isCast

end Lookups

/-- The change of a file in `ReadExtendedFilenames`. -/
def resolve (image : Bytes) (extendedFilenamesOffset : ℕ) (file : ReadFile) : Option ReadFile := do
  let filename ← readExtendedFilename image extendedFilenamesOffset file.filename
  return { file with filename }

theorem resolve_eq_some {image : Bytes} {offset : ℕ} {file resolved : ReadFile} :
    resolve image offset file = some resolved ↔
      ∃ filename, readExtendedFilename image offset file.filename = some filename ∧
        resolved = { file with filename } := by
  rw [resolve, Option.bind_eq_bind, Option.bind_eq_some_iff]
  constructor
  · rintro ⟨filename, isName, same⟩
    exact ⟨filename, isName, (Option.some.inj same).symm⟩
  · rintro ⟨filename, isName, rfl⟩
    exact ⟨filename, isName, rfl⟩

variable {fuel : ℕ}

/-- An archive is open when its headers, its long names and its symbol table are read. -/
theorem openArchive_eq_some {image : Bytes} :
    openArchive image fuel = some archive ↔
      image.take 8 = archiveMagic ∧ ∃ walked files,
        readFileHeaders image fuel 8 .new = some walked ∧
        List.Forall₂ (fun file resolved =>
          resolve image walked.extendedFilenamesOffset file = some resolved) walked.files files ∧
        match walked.symbolTableFile with
        | none => archive = { walked with files }
        | some table =>
          readSymbolTable image { walked with files } table.fileOffset = some archive := by
  rw [openArchive]
  split
  · next isMagic =>
      rw [and_iff_right isMagic, Option.bind_eq_bind, Option.bind_eq_some_iff]
      apply exists_congr
      intro walked
      have names : readExtendedFilenames image walked =
          (walked.files.mapM (resolve image walked.extendedFilenamesOffset)).map fun files =>
            { walked with files } := by
        change (walked.files.mapM (resolve image walked.extendedFilenamesOffset)).bind _ = _
        cases walked.files.mapM (resolve image walked.extendedFilenamesOffset) <;> rfl
      rw [names, exists_and_left]
      apply and_congr_right
      intro _
      rw [Option.bind_map, Option.bind_eq_some_iff]
      apply exists_congr
      intro files
      rw [mapM_eq_some_iff]
      apply and_congr_right
      intro _
      cases walked.symbolTableFile with
      | none => exact ⟨fun same => (Option.some.inj same).symm, fun same => congrArg some same.symm⟩
      | some table => rfl
  · next other => exact iff_of_false (Option.some_ne_none _).symm fun both => other both.1

variable {walked : ARArchive}

theorem openArchive_of_table {image : Bytes} {files : List ReadFile} {table : ReadFile}
    (isMagic : image.take 8 = archiveMagic)
    (isWalk : readFileHeaders image fuel 8 .new = some walked)
    (isResolved : List.Forall₂ (fun file resolved => resolve image walked.extendedFilenamesOffset
      file = some resolved) walked.files files) (isTable : walked.symbolTableFile = some table)
    (isRead : readSymbolTable image { walked with files } table.fileOffset = some archive) :
    openArchive image fuel = some archive := by
  apply openArchive_eq_some.mpr ⟨isMagic, walked, files, isWalk, isResolved, _⟩
  split
  · next absent =>
      rw [isTable] at absent
      cases absent
  · next found isFound =>
      rw [isTable] at isFound
      cases isFound
      exact isRead

/-- Opening leaves the files as the long names make them. -/
theorem files_of_table {image : Bytes}
    (isRead : readSymbolTable image walked start = some archive) :
    archive.files = walked.files := by
  rw [readSymbolTable] at isRead
  simp only [Option.bind_eq_bind, Option.bind_eq_some_iff, Option.pure_def, Option.some.injEq]
    at isRead
  rcases isRead with ⟨_, _, rfl⟩
  rfl

/-! ## What is written comes back -/

theorem survivingSymbols_eq_nil {builder : ARArchiveBuilder}
    (noSymbols : builder.symbols.length = 0) : survivingSymbols builder = [] := by
  rw [survivingSymbols, List.length_eq_zero_iff.mp noSymbols, List.filter_nil]

theorem recordable_core (file : ARFile) : Recordable file.core ↔ Recordable file :=
  ⟨fun recordable => { recordable with }, fun recordable => { recordable with }⟩

theorem mem_specialEntries {builder : ARArchiveBuilder} {now : ℤ} {entry : Entry} :
    entry ∈ specialEntries builder now ↔
      (builder.symbols.length ≠ 0 ∧ entry = symbolTableEntry builder now) ∨
        ((longFilenames builder.files).length ≠ 0 ∧ entry = extendedFilenamesEntry builder now) := by
  rw [specialEntries, List.mem_append]
  split <;> split <;> simp_all

theorem mem_archiveMembers {builder : ARArchiveBuilder} {now : ℤ} {member : Member} :
    member ∈ archiveMembers builder now ↔
      (∃ entry ∈ specialEntries builder now, member = .special entry) ∨
        ∃ file ∈ surviving (preparedFiles builder), member = .file file := by
  rw [archiveMembers, List.mem_append, List.mem_map, List.mem_map]
  simp only [eq_comm]

section Forward

variable {builder : ARArchiveBuilder} {now : ℤ}

theorem Writable.recorded (writable : Writable builder now) :
    ∀ file ∈ surviving (preparedFiles builder), Recordable file :=
  (forall_surviving recordable_core builder).mpr writable.recordable

theorem Writable.small (writable : Writable builder now) :
    ∀ member ∈ archiveMembers builder now, member.entry.contents.length < 10 ^ 9 := by
  intro member inside
  rcases mem_archiveMembers.mp inside with ⟨entry, isSpecial, rfl⟩ | ⟨file, isFile, rfl⟩
  · rcases mem_specialEntries.mp isSpecial with ⟨symbols, rfl⟩ | ⟨names, rfl⟩
    · change (symbolTableContents builder).length < 10 ^ 9
      rw [length_symbolTableContents]
      exact writable.table symbols
    · change (extendedFilenamesContents builder).length < 10 ^ 9
      rw [length_extendedFilenamesContents]
      exact writable.names names
  · exact (writable.recorded file isFile).size

theorem Writable.written (writable : Writable builder now) :
    ∀ member ∈ archiveMembers builder now, member.entry.header.isSome = true := by
  intro member inside
  have small := writable.small member inside
  rw [Entry.isSome_header]
  rcases mem_archiveMembers.mp inside with ⟨entry, isSpecial, rfl⟩ | ⟨file, isFile, rfl⟩
  · have clock := writable.clock (List.ne_nil_of_mem isSpecial)
    have fields : entry.timestamp = now ∧ entry.owner = 0 ∧ entry.group = 0 ∧ entry.mode = 511 := by
      rcases mem_specialEntries.mp isSpecial with ⟨_, rfl⟩ | ⟨_, rfl⟩ <;> exact ⟨rfl, rfl, rfl, rfl⟩
    change entry.contents.length < 10 ^ 9 at small
    change Fits entry.timestamp 12 ∧ Fits entry.owner 6 ∧ Fits entry.group 6 ∧ Fits entry.mode 8 ∧
      Fits entry.contents.length 10
    simp only [Fits]
    omega
  · have recorded := writable.recorded file isFile
    have owner := recorded.owner
    have group := recorded.group
    have mode := recorded.mode
    have timestamp := recorded.timestamp
    change file.contents.length < 10 ^ 9 at small
    change Fits file.timestamp 12 ∧ Fits file.owner 6 ∧ Fits file.group 6 ∧ Fits file.mode 8 ∧
      Fits file.contents.length 10
    simp only [Fits]
    omega

/-- A member that is read becomes a member that is recovered. -/
theorem Writable.resolves (writable : Writable builder now) {image : Bytes} {offset : ℕ}
    (names : (longFilenames builder.files).length ≠ 0 →
      ∃ rest, image.drop offset = extendedFilenamesContents builder ++ rest)
    {member : Member} (inside : member ∈ archiveMembers builder now) {file : ReadFile}
    (readAs : member.ReadAs image file) :
    ∃ resolved, resolve image offset file = some resolved ∧ member.Recovered image resolved := by
  have size := readAs.readBack.size.mpr (writable.small member inside)
  have filename := readAs.readBack.filename
  rcases mem_archiveMembers.mp inside with ⟨entry, isSpecial, rfl⟩ | ⟨archived, isFile, rfl⟩
  · refine ⟨file, resolve_eq_some.mpr ⟨file.filename, ?_, rfl⟩, filename, size⟩
    rw [filename]
    rcases mem_specialEntries.mp isSpecial with ⟨_, rfl⟩ | ⟨_, rfl⟩ <;> rfl
  · have recorded := writable.recorded archived isFile
    have isName : readExtendedFilename image offset file.filename = some archived.filename.chars := by
      rw [filename]
      change readExtendedFilename image offset (recordedName archived) = _
      by_cases isLong : 15 < archived.filename.chars.length
      · rcases exists_drop_names (List.mem_filter.mp isFile).1 isLong with ⟨rest, found⟩
        have before : archived.extendedFilenameOffset < (extendedFilenamesContents builder).length := by
          apply List.length_lt_of_drop_ne_nil
          rw [found]
          exact List.append_ne_nil_of_right_ne_nil _ (List.cons_ne_nil _ _)
        have someNames : (longFilenames builder.files).length ≠ 0 := by
          intro none
          rw [extendedFilenamesContents, List.length_eq_zero_iff.mp none] at before
          exact Nat.not_lt_zero _ before
        rcases names someNames with ⟨more, there⟩
        have small := writable.names someNames
        rw [← length_extendedFilenamesContents] at small
        apply readExtendedFilename_reference isLong (Nat.lt_trans before small)
        rw [← List.drop_drop, there, List.drop_append_of_le_length (Nat.le_of_lt before), found,
          List.append_assoc, List.cons_append]
      · rw [readExtendedFilename_short isLong, recordedName, if_neg isLong,
          if_neg recorded.filename]
    refine ⟨_, resolve_eq_some.mpr ⟨_, isName, rfl⟩, ?_⟩
    have readBack := readAs.readBack
    rcases readAs.contents with ⟨rest, there⟩
    rcases readAs.position with ⟨start, position, atStart⟩
    exact
      { filename := rfl
        size := size
        owner := readBack.owner.mpr recorded.owner
        group := readBack.group.mpr recorded.group
        mode := readBack.mode.mpr recorded.mode
        timestamp := readBack.timestamp.mpr recorded.timestamp
        contents := by
          rw [there]
          exact List.take_left' rfl
        position := by rw [position, ← atStart] }

end Forward

section Image

variable {builder : ARArchiveBuilder} {now : ℤ} {image : Bytes}

theorem drop_magic (isImage : image = archiveMagic ++ entriesBytes (archiveEntries builder now)) :
    image.drop 8 = entriesBytes (archiveEntries builder now) := by
  rw [isImage]
  rfl

theorem written_special
    (written : ∀ entry ∈ archiveEntries builder now, entry.header.isSome = true) :
    ∀ entry ∈ specialEntries builder now, entry.header.isSome = true := by
  intro entry inside
  exact written entry (List.mem_append_left _ inside)

/-- The files that are written start where their offsets say. -/
theorem placedAt_archive (inPlace : WrittenInPlace builder)
    (written : ∀ entry ∈ archiveEntries builder now, entry.header.isSome = true) :
    PlacedAt (firstPosition builder now) (surviving (preparedFiles builder)) := by
  apply inPlace_placedAt ((inPlace_iff (written_special written)).mpr inPlace)
  intro file inside
  exact written file.entry (List.mem_append_right _ (List.mem_map_of_mem inside))

variable {files : List ReadFile}

/-- The members are read pointwise. -/
theorem forall₂_archiveMembers (inPlace : WrittenInPlace builder)
    (written : ∀ entry ∈ archiveEntries builder now, entry.header.isSome = true)
    (isImage : image = archiveMagic ++ entriesBytes (archiveEntries builder now))
    (readAt : ReadAt 8 (archiveEntries builder now) files) :
    List.Forall₂ (Member.ReadAs image) (archiveMembers builder now) files := by
  have ahead := drop_magic isImage
  rw [← map_entry_archiveMembers] at readAt ahead written
  rw [List.forall_mem_map] at written
  apply forall₂_readAs readAt _ written ahead
  apply membersAt_special
  have placed : PlacedAt (firstPosition builder now) (surviving (preparedFiles builder)) := by
    apply placedAt_archive inPlace
    rw [← map_entry_archiveMembers, List.forall_mem_map]
    exact written
  rw [firstPosition, List.length_append] at placed
  exact membersAt_files placed

/-- The map of the headers' offsets after the walk. -/
theorem indexed_archive (written : ∀ entry ∈ archiveEntries builder now, entry.header.isSome = true)
    (readAt : ReadAt 8 (archiveEntries builder now) files) :
    Indexed (addFiles .new 8 (archiveEntries builder now) files).fileOffsets
      (startsAt 8 (archiveEntries builder now)) := by
  rw [← List.nil_append (startsAt 8 (archiveEntries builder now))]
  exact indexed_addFiles readAt written indexed_empty rfl fun _ absent => nomatch absent

end Image

theorem Writable.roundTrips {builder : ARArchiveBuilder} {now : ℤ}
    (writable : Writable builder now) : RoundTrips builder now := by
  have written : ∀ entry ∈ archiveEntries builder now, entry.header.isSome = true := by
    rw [← map_entry_archiveMembers, List.forall_mem_map]
    exact writable.written
  have small : ∀ entry ∈ archiveEntries builder now, entry.contents.length < 10 ^ 9 := by
    rw [← map_entry_archiveMembers, List.forall_mem_map]
    exact writable.small
  have nonempty : ∀ file ∈ surviving (preparedFiles builder), file.filename.chars ≠ [] :=
    fun file inside => (writable.recorded file inside).filename
  generalize isImage : archiveMagic ++ entriesBytes (archiveEntries builder now) = image
  have ahead := drop_magic isImage.symm
  rcases exists_readFileHeaders written small ahead with ⟨files, readAt, walk⟩
  have sameFiles : (addFiles .new 8 (archiveEntries builder now) files).files = files :=
    files_addFiles readAt .new
  have indexed := indexed_archive written readAt
  have placed := placedAt_archive writable.inPlace written
  have reads := forall₂_archiveMembers writable.inPlace written isImage.symm readAt
  rcases exists_forall₂ reads fun member inside file readAs =>
    writable.resolves (extendedFilenamesOffset_spec readAt written ahead) inside readAs with
      ⟨resolved, isResolved, recovered⟩
  have isMagic : image.take 8 = archiveMagic := by
    rw [← isImage]
    rfl
  generalize isWalked : addFiles .new 8 (archiveEntries builder now) files = walked
    at sameFiles indexed isResolved
  have emptyTable : ({ walked with files := resolved } : ARArchive).symbolTable = .init 1009 := by
    rw [← isWalked, symbolTable_addFiles]
    rfl
  rw [← sameFiles] at isResolved
  have isWalk := walk .new
  rw [isWalked] at isWalk
  have isWritten := write_eq_some.mpr ⟨writable.inPlace, written, isImage.symm⟩
  by_cases noSymbols : builder.symbols.length = 0
  · have noTable := symbolTableFile_none readAt nonempty noSymbols
    rw [isWalked] at noTable
    have isOpen : openArchive image ((archiveEntries builder now).length + 1) =
        some { walked with files := resolved } := by
      apply openArchive_eq_some.mpr ⟨isMagic, walked, resolved, isWalk, isResolved, _⟩
      rw [noTable]
    refine ⟨image, _, _, isWritten, isOpen, recovered, ?_, ?_⟩
    · rw [survivingSymbols_eq_nil noSymbols]
      exact List.forall_mem_nil _
    · intro name _
      rw [ARArchive.findSymbol, emptyTable]
      exact HashTable.search_init
  · rcases symbolTableFile_some readAt written ahead nonempty noSymbols with ⟨table, rest, isTable, there⟩
    rw [isWalked] at isTable
    have isRead := readSymbolTable_eq there (writable.table noSymbols) { walked with files := resolved }
    rw [find_symbols indexed placed writable.near, Option.map_some] at isRead
    have isOpen := openArchive_of_table isMagic isWalk isResolved isTable isRead
    refine ⟨image, _, _, isWritten, isOpen, recovered, ?_, ?_⟩
    · intro symbol inside
      rw [findSymbol_insertSymbols emptyTable, List.zipWith_map_right, List.zipWith_self]
      exact find?_symbols writable.agree inside
    · intro name absent
      rw [findSymbol_insertSymbols emptyTable, List.zipWith_map_right, List.zipWith_self,
        List.find?_eq_none]
      intro read isRead isName
      rcases List.mem_map.mp isRead with ⟨symbol, inside, rfl⟩
      exact absent symbol inside (of_decide_eq_true isName)

theorem RoundTrips.writable {builder : ARArchiveBuilder} {now : ℤ}
    (roundTrips : RoundTrips builder now) : Writable builder now := by
  rcases roundTrips with ⟨image, fuel, archive, isWritten, isOpen, readsBack⟩
  rcases write_eq_some.mp isWritten with ⟨inPlace, written, isImage⟩
  rcases openArchive_eq_some.mp isOpen with ⟨_, walked, files, isWalk, isResolved, isTable⟩
  have ahead := drop_magic isImage
  have sameFiles : archive.files = files := by
    cases found : walked.symbolTableFile with
    | none =>
      rw [found] at isTable
      rw [isTable]
    | some table =>
      rw [found] at isTable
      exact files_of_table isTable
  have recovered := readsBack.members
  rw [sameFiles] at recovered
  have backwards : List.Forall₂ (fun resolved file =>
      resolve image walked.extendedFilenamesOffset file = some resolved) files walked.files :=
    isResolved.flip
  have sizes : List.Forall₂ (fun entry file => file.size = (entry.contents.length : ℤ))
      (archiveEntries builder now) walked.files := by
    rw [← map_entry_archiveMembers, List.forall₂_map_left_iff]
    apply forall₂_trans recovered backwards
    intro member resolved file isRecovered isResolved
    rcases resolve_eq_some.mp isResolved with ⟨filename, _, rfl⟩
    cases member with
    | special entry => exact isRecovered.2
    | file archived => exact isRecovered.size
  rcases readAt_of_sizes written ahead isWalk rfl sizes with ⟨readAt, isWalked⟩
  have reads := forall₂_archiveMembers inPlace written isImage readAt
  have recordable : ∀ file ∈ surviving (preparedFiles builder), Recordable file := by
    intro file inside
    have isMember : Member.file file ∈ archiveMembers builder now :=
      mem_archiveMembers.mpr (.inr ⟨file, inside, rfl⟩)
    rcases exists_related_chain reads isResolved recovered isMember with
      ⟨read, resolved, readAs, isResolved, recovers⟩
    rcases resolve_eq_some.mp isResolved with ⟨filename, isName, rfl⟩
    have readBack := readAs.readBack
    refine ⟨?_, readBack.size.mp recovers.size, readBack.owner.mp recovers.owner,
      readBack.group.mp recovers.group, readBack.mode.mp recovers.mode,
      readBack.timestamp.mp recovers.timestamp⟩
    intro empty
    rw [readBack.filename] at isName
    change readExtendedFilename image _ (recordedName file) = some filename at isName
    rw [recordedName_eq_table.mpr empty] at isName
    have isSlash : [slash] = filename := Option.some.inj isName
    have isEmpty := recovers.filename
    rw [empty] at isEmpty
    exact List.cons_ne_nil _ _ (isSlash.trans isEmpty)
  have small : ∀ entry ∈ specialEntries builder now, entry.contents.length < 10 ^ 9 := by
    intro entry inside
    have isMember : Member.special entry ∈ archiveMembers builder now :=
      mem_archiveMembers.mpr (.inl ⟨entry, inside, rfl⟩)
    rcases exists_related_chain reads isResolved recovered isMember with
      ⟨read, resolved, readAs, isResolved, recovers⟩
    rcases resolve_eq_some.mp isResolved with ⟨filename, _, rfl⟩
    exact readAs.readBack.size.mp recovers.2
  have nonempty : ∀ file ∈ surviving (preparedFiles builder), file.filename.chars ≠ [] :=
    fun file inside => (recordable file inside).filename
  have lookups : (∀ symbol ∈ survivingSymbols builder, ∀ other ∈ survivingSymbols builder,
      symbol.name.chars = other.name.chars → symbol.file = other.file) ∧
      ∀ symbol ∈ survivingSymbols builder,
        symbolOffset (preparedFiles builder) symbol < 2 ^ 31 := by
    by_cases noSymbols : builder.symbols.length = 0
    · rw [survivingSymbols_eq_nil noSymbols]
      exact ⟨List.forall_mem_nil _, List.forall_mem_nil _⟩
    · rcases symbolTableFile_some readAt written ahead nonempty noSymbols with
        ⟨table, rest, found, there⟩
      have tableSize := small _ (mem_specialEntries.mpr (.inl ⟨noSymbols, rfl⟩))
      rw [show (symbolTableEntry builder now).contents.length = symbolTableLength builder from
        length_symbolTableContents builder] at tableSize
      have indexed := indexed_archive written readAt
      rw [← isWalked] at found indexed
      have emptyTable : walked.symbolTable = .init 1009 := by
        rw [isWalked, symbolTable_addFiles]
        rfl
      rw [found] at isTable
      simp only [readSymbolTable_eq there tableSize, Option.map_eq_some_iff] at isTable
      rcases isTable with ⟨indices, isFound, rfl⟩
      apply agree_and_near indexed (placedAt_archive inPlace written) isFound
      intro symbol inside
      rw [← readsBack.symbols symbol inside, findSymbol_insertSymbols]
      exact emptyTable
  exact
    { inPlace := inPlace
      recordable := (forall_surviving recordable_core builder).mp recordable
      clock := by
        intro someSpecial
        rcases List.exists_mem_of_ne_nil _ someSpecial with ⟨entry, inside⟩
        have fits := (Entry.isSome_header.mp (written_special written entry inside)).1
        rcases mem_specialEntries.mp inside with ⟨_, rfl⟩ | ⟨_, rfl⟩ <;> exact fits
      table := by
        intro symbols
        have := small _ (mem_specialEntries.mpr (.inl ⟨symbols, rfl⟩))
        rwa [← length_symbolTableContents]
      names := by
        intro names
        have := small _ (mem_specialEntries.mpr (.inr ⟨names, rfl⟩))
        rwa [← length_extendedFilenamesContents]
      agree := lookups.1
      near := lookups.2 }

/-- An archive round-trips exactly when it is writable. -/
theorem roundTrips_iff (builder : ARArchiveBuilder) (now : ℤ) :
    RoundTrips builder now ↔ Writable builder now :=
  ⟨RoundTrips.writable, Writable.roundTrips⟩

/-- An empty file `a` and no symbols. -/
def singleFile : ARArchiveBuilder :=
  ARArchiveBuilder.new.addFile ⟨[97], by decide⟩ 0 0 0o644 0 []

/-- Without symbols no symbol table is written, but room is left for it. -/
theorem singleFile_not_roundTrips : ¬RoundTrips singleFile 0 := by
  rintro ⟨image, fuel, archive, isWritten, _⟩
  have unwritten : write singleFile 0 = none := rfl
  rw [unwritten] at isWritten
  cases isWritten

end DaveCC.Archive
