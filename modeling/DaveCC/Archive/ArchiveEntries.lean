import DaveCC.Archive.ArchiveFields

/-!
# Archives as sequences of entries

The bytes of an archive after its magic string are those of its entries, one after another.
The writer appends the bytes of one entry after another, and the walk of the reader goes from
one entry to the next as long as it reads the sizes that were written.
-/

namespace DaveCC.Archive

theorem align2_eq (offset : ℕ) : align2 offset = offset + offset % 2 := by
  rw [align2]
  omega

theorem alignFileOffset_eq (out : Bytes) :
    alignFileOffset out = out ++ List.replicate (out.length % 2) 0 := by
  rw [alignFileOffset]
  rcases Nat.mod_two_eq_zero_or_one out.length with even | odd
  · rw [if_neg (by omega), even, List.replicate_zero, List.append_nil]
  · rw [if_pos odd, odd, List.replicate_one]

namespace Entry

/-- The header of an entry, its contents and the padding. -/
def bytes (entry : Entry) : Bytes :=
  entry.header.getD [] ++ (entry.contents ++ List.replicate (entry.contents.length % 2) 0)

variable {entry : Entry} {header : Bytes}

theorem length_bytes (written : entry.header.isSome = true) :
    entry.bytes.length = align2 (entry.contents.length + headerSize) := by
  rcases Option.isSome_iff_exists.mp written with ⟨header, built⟩
  rw [bytes, built, Option.getD_some, List.length_append, List.length_append, length_header built,
    List.length_replicate, align2_eq, headerSize]
  omega

theorem even_length_bytes (written : entry.header.isSome = true) : entry.bytes.length % 2 = 0 := by
  rw [length_bytes written, align2]
  exact Nat.mul_mod_left _ _

end Entry

/-- The writing of one entry. -/
def writeEntry (out : Bytes) (entry : Entry) : Option Bytes :=
  entry.header.map fun header => alignFileOffset (out ++ header ++ entry.contents)

variable {out : Bytes}

theorem writeEntry_eq {entry : Entry} (even : out.length % 2 = 0)
    (written : entry.header.isSome = true) : writeEntry out entry = some (out ++ entry.bytes) := by
  rcases Option.isSome_iff_exists.mp written with ⟨header, built⟩
  have parity : (out ++ header ++ entry.contents).length % 2 = entry.contents.length % 2 := by
    rw [List.length_append, List.length_append, Entry.length_header built, headerSize]
    omega
  rw [writeEntry, built, Option.map_some, alignFileOffset_eq, parity, Entry.bytes, built,
    Option.getD_some, List.append_assoc, List.append_assoc]

/-- The bytes of entries, one after another. -/
def entriesBytes (entries : List Entry) : Bytes :=
  entries.flatMap Entry.bytes

variable {entries : List Entry} {image : Bytes}

/-- The writer appends the bytes of the entries, when it can write all their headers. -/
theorem foldlM_writeEntry (even : out.length % 2 = 0) :
    entries.foldlM writeEntry out = some image ↔
      (∀ entry ∈ entries, entry.header.isSome = true) ∧ image = out ++ entriesBytes entries := by
  induction entries generalizing out with
  | nil =>
    rw [entriesBytes, List.flatMap_nil, List.append_nil, List.foldlM_nil]
    exact ⟨fun same => ⟨fun _ absent => (nomatch absent), (Option.some.inj same).symm⟩,
      fun same => congrArg some same.2.symm⟩
  | cons entry entries ih =>
    rw [List.foldlM_cons, List.forall_mem_cons]
    cases written : entry.header.isSome with
    | false =>
      rw [writeEntry, Option.isSome_eq_false_iff.mp written |> Option.isNone_iff_eq_none.mp]
      simp
    | true =>
      have evenNext : (out ++ entry.bytes).length % 2 = 0 := by
        rw [List.length_append]
        have := Entry.even_length_bytes written
        omega
      rw [writeEntry_eq even written, Option.bind_eq_bind, Option.bind_some, ih evenNext,
        entriesBytes, entriesBytes, List.flatMap_cons, List.append_assoc]
      exact ⟨fun both => ⟨⟨rfl, both.1⟩, both.2⟩, fun both => ⟨both.1.2, both.2⟩⟩

/-- The files that are read from entries, of which the first starts at an offset. -/
def ReadAt : ℕ → List Entry → List ReadFile → Prop
  | _, [], [] => True
  | start, entry :: entries, file :: files =>
    entry.ReadBack (start + headerSize) file ∧ ReadAt (start + entry.bytes.length) entries files
  | _, _, _ => False

/-- The archive that the files of entries have joined. -/
def addFiles (archive : ARArchive) : ℕ → List Entry → List ReadFile → ARArchive
  | start, entry :: entries, file :: files =>
    addFiles (archive.addFile start file) (start + entry.bytes.length) entries files
  | _, _, _ => archive

theorem skipContents_eq {entry : Entry} (written : entry.header.isSome = true) (start : ℕ) :
    skipContents (start + headerSize) entry.contents.length = start + entry.bytes.length := by
  rw [Entry.length_bytes written, align2, skipContents, headerSize, if_neg (by omega)]
  omega

variable {start : ℕ}

/-- The walk reads the entry at its position. -/
theorem readFileHeaders_entry {rest : Bytes} {entry : Entry}
    (written : entry.header.isSome = true) (ahead : image.drop start = entry.bytes ++ rest) :
    ∃ file, entry.ReadBack (start + headerSize) file ∧ ∀ fuel archive,
      readFileHeaders image (fuel + 1) start archive =
        readFileHeaders image fuel (skipContents (start + headerSize) file.size)
          (archive.addFile start file) := by
  rcases Option.isSome_iff_exists.mp written with ⟨header, built⟩
  rcases Entry.exists_readFileHeader built (start + headerSize) with ⟨file, isRead, readBack⟩
  have size := Entry.length_header built
  have found : (image.drop start).take headerSize = header := by
    rw [ahead, Entry.bytes, built, Option.getD_some, List.append_assoc, List.take_left' size]
  refine ⟨file, readBack, ?_⟩
  intro fuel archive
  have nonempty : header ≠ [] := by
    intro empty
    rw [empty] at size
    cases size
  rw [readFileHeaders, found, if_neg nonempty, if_neg (size ▸ Nat.lt_irrefl _), isRead,
    Option.bind_eq_bind, Option.bind_some, readBack.fileOffset]

theorem readFileHeaders_end (ahead : image.drop start = []) (fuel : ℕ) (archive : ARArchive) :
    readFileHeaders image (fuel + 1) start archive = some archive := by
  rw [readFileHeaders, ahead, List.take_nil, if_pos rfl]

variable {fuel : ℕ} {archive result : ARArchive}

/-- The walk only appends files. -/
theorem readFileHeaders_files (isRead : readFileHeaders image fuel start archive = some result) :
    ∃ files, result.files = archive.files ++ files := by
  induction fuel generalizing start archive with
  | zero => cases isRead
  | succ fuel ih =>
    rw [readFileHeaders] at isRead
    split at isRead
    · exact ⟨[], by rw [← Option.some.inj isRead, List.append_nil]⟩
    · split at isRead
      · cases isRead
      · rcases Option.bind_eq_some_iff.mp isRead with ⟨file, _, isRead⟩
        rcases ih isRead with ⟨files, same⟩
        exact ⟨file :: files, by rw [same, ARArchive.addFile, List.append_assoc]; rfl⟩

/-- Entries whose sizes are read back are walked over. -/
theorem exists_readFileHeaders (written : ∀ entry ∈ entries, entry.header.isSome = true)
    (small : ∀ entry ∈ entries, entry.contents.length < 10 ^ 9)
    (ahead : image.drop start = entriesBytes entries) :
    ∃ files, ReadAt start entries files ∧ ∀ archive,
      readFileHeaders image (entries.length + 1) start archive =
        some (addFiles archive start entries files) := by
  induction entries generalizing start with
  | nil => exact ⟨[], trivial, readFileHeaders_end ahead _⟩
  | cons entry entries ih =>
    rw [List.forall_mem_cons] at written small
    rw [entriesBytes, List.flatMap_cons] at ahead
    rcases readFileHeaders_entry written.1 ahead with ⟨file, readBack, step⟩
    have next : image.drop (start + entry.bytes.length) = entriesBytes entries := by
      rw [← List.drop_drop, ahead, List.drop_left, entriesBytes]
    rcases ih written.2 small.2 next with ⟨files, readAt, walk⟩
    refine ⟨file :: files, ⟨readBack, readAt⟩, ?_⟩
    intro archive
    rw [List.length_cons, step, readBack.size.mpr small.1, skipContents_eq written.1, walk,
      addFiles]

/-- A walk that reads the sizes that were written has read the entries where they are. -/
theorem readAt_of_sizes {files : List ReadFile}
    (written : ∀ entry ∈ entries, entry.header.isSome = true)
    (ahead : image.drop start = entriesBytes entries)
    (isRead : readFileHeaders image fuel start archive = some result)
    (same : result.files = archive.files ++ files) (sizes : List.Forall₂ (fun entry file =>
      file.size = (entry.contents.length : ℤ)) entries files) :
    ReadAt start entries files ∧ result = addFiles archive start entries files := by
  induction sizes generalizing fuel start archive with
  | nil =>
    cases fuel with
    | zero => cases isRead
    | succ fuel =>
      rw [readFileHeaders_end ahead] at isRead
      exact ⟨trivial, (Option.some.inj isRead).symm⟩
  | @cons entry file entries files size sizes ih =>
    cases fuel with
    | zero => cases isRead
    | succ fuel =>
      rw [List.forall_mem_cons] at written
      rw [entriesBytes, List.flatMap_cons] at ahead
      rcases readFileHeaders_entry written.1 ahead with ⟨first, readBack, step⟩
      have next : image.drop (start + entry.bytes.length) = entriesBytes entries := by
        rw [← List.drop_drop, ahead, List.drop_left, entriesBytes]
      rw [step] at isRead
      rcases readFileHeaders_files isRead with ⟨more, extends_⟩
      have whole : archive.files ++ file :: files = archive.files ++ first :: more := by
        rw [← same, extends_, ARArchive.addFile, List.append_assoc]
        rfl
      have split := List.append_cancel_left whole
      rw [List.cons.injEq] at split
      rw [← split.1] at readBack isRead extends_
      rw [← split.2] at extends_
      rw [size, skipContents_eq written.1] at isRead
      have rest := ih written.2 next isRead extends_
      exact ⟨⟨readBack, rest.1⟩, rest.2⟩

end DaveCC.Archive

/-!
## The offsets of the members

The writer writes the special members and the files that are not deleted as entries. It gets
through its assertions exactly when no file is written, or when there is a symbol table and
no deleted file precedes one that is written.
-/

namespace DaveCC.Archive

def symbolTableEntry (builder : ARArchiveBuilder) (now : ℤ) : Entry where
  field := writeLeftFilename [slash] 16
  name := [slash]
  owner := 0
  group := 0
  mode := 0o777
  timestamp := now
  contents := symbolTableContents builder
  length_field := rfl
  read_field _ := rfl

/-- The entry of the long names. -/
def extendedFilenamesEntry (builder : ARArchiveBuilder) (now : ℤ) : Entry where
  field := writeLeftFilename [slash, slash] 16
  name := [slash, slash]
  owner := 0
  group := 0
  mode := 0o777
  timestamp := now
  contents := extendedFilenamesContents builder
  length_field := rfl
  read_field _ := rfl

def ARFile.entry (file : ARFile) : Entry where
  field := filenameField file
  name := recordedName file
  owner := file.owner
  group := file.group
  mode := file.mode
  timestamp := file.timestamp
  contents := file.contents
  length_field := length_filenameField file
  read_field := readFilename_filenameField file

/-- The special members that are written. -/
def specialEntries (builder : ARArchiveBuilder) (now : ℤ) : List Entry :=
  (if builder.symbols.length = 0 then [] else [symbolTableEntry builder now]) ++
    if (longFilenames builder.files).length = 0 then [] else [extendedFilenamesEntry builder now]

/-- The files that are not deleted. -/
def surviving (files : List ARFile) : List ARFile :=
  files.filter fun file => !file.deleted

/-- The entries of an archive, in the order in which they are written. -/
def archiveEntries (builder : ARArchiveBuilder) (now : ℤ) : List Entry :=
  specialEntries builder now ++ (surviving (preparedFiles builder)).map ARFile.entry

theorem foldl_add_eq {α : Type*} (size : α → ℕ) (values : List α) (start : ℕ) :
    values.foldl (fun total value => total + size value) start = start + (values.map size).sum := by
  induction values generalizing start with
  | nil => rfl
  | cons value values ih =>
    rw [List.foldl_cons, ih, List.map_cons, List.sum_cons, Nat.add_assoc]

theorem symbolTableLength_eq (builder : ARArchiveBuilder) :
    symbolTableLength builder =
      4 + ((survivingSymbols builder).map fun symbol => symbol.name.chars.length + 5).sum :=
  foldl_add_eq (fun symbol : ARSymbol => symbol.name.chars.length + 5) _ 4

theorem length_symbolTableContents (builder : ARArchiveBuilder) :
    (symbolTableContents builder).length = symbolTableLength builder := by
  have offsets (symbols : List ARSymbol) :
      (symbols.flatMap fun symbol =>
        writeBigEndianInt (symbolOffset (preparedFiles builder) symbol)).length +
          (symbols.flatMap fun symbol => symbol.name.chars ++ [0]).length =
        (symbols.map fun symbol => symbol.name.chars.length + 5).sum := by
    induction symbols with
    | nil => rfl
    | cons symbol symbols ih =>
      rw [List.flatMap_cons, List.flatMap_cons, List.length_append, List.length_append,
        List.length_append, List.map_cons, List.sum_cons, ← ih, List.length_singleton,
        writeBigEndianInt]
      simp only [List.length_cons, List.length_nil]
      omega
  rw [symbolTableContents, symbolTableLength_eq, ← offsets, List.length_append, List.length_append,
    Nat.add_assoc]
  rfl

theorem length_extendedFilenamesContents (builder : ARArchiveBuilder) :
    (extendedFilenamesContents builder).length = nextLongFilenameOffset builder.files := by
  have sum : nextLongFilenameOffset builder.files =
      0 + ((longFilenames builder.files).map fun filename => filename.chars.length + 1).sum :=
    foldl_add_eq (fun filename : MemberName => filename.chars.length + 1) _ 0
  rw [sum, Nat.zero_add, extendedFilenamesContents, List.length_flatMap]
  simp

theorem writeSymbolTable_eq (builder : ARArchiveBuilder) (now : ℤ) (out : Bytes) :
    writeSymbolTable builder now out =
      (if builder.symbols.length = 0 then [] else [symbolTableEntry builder now]).foldlM writeEntry
        out := by
  rw [writeSymbolTable]
  split
  · rfl
  · rw [List.foldlM_cons]
    simp only [writeEntry, Entry.header, symbolTableEntry, length_symbolTableContents]
    cases buildFileHeader (writeLeftFilename [slash] 16) 0 0 0o777 now (symbolTableLength builder) <;>
      rfl

theorem writeExtendedFilenames_eq (builder : ARArchiveBuilder) (now : ℤ) (out : Bytes) :
    writeExtendedFilenames builder now out =
      (if (longFilenames builder.files).length = 0 then []
        else [extendedFilenamesEntry builder now]).foldlM writeEntry out := by
  rw [writeExtendedFilenames]
  split
  · rfl
  · rw [List.foldlM_cons]
    simp only [writeEntry, Entry.header, extendedFilenamesEntry, length_extendedFilenamesContents]
    cases buildFileHeader (writeLeftFilename [slash, slash] 16) 0 0 0o777 now
      (nextLongFilenameOffset builder.files) <;> rfl

/-! ## The assertions -/

/-- No deleted file precedes one that is not. -/
def DeletedLast (files : List ARFile) : Prop :=
  files.Pairwise fun earlier later => earlier.deleted = true → later.deleted = true

/-- The computed offsets agree with the position at which the files are written. -/
def InPlace (position offset : ℕ) (files : List ARFile) : Prop :=
  (∀ file ∈ files, file.deleted = true) ∨ (position = offset ∧ DeletedLast files)

variable {file : ARFile}

theorem writeFile_eq {out : Bytes} (inPlace : out.length = file.fileOffset) :
    writeFile out file = writeEntry out file.entry := by
  rw [writeFile, if_pos inPlace, writeEntry, Entry.header]
  change _ = (buildFileHeader (filenameField file) file.owner file.group file.mode file.timestamp
    file.contents.length).map _
  cases buildFileHeader (filenameField file) file.owner file.group file.mode file.timestamp
    file.contents.length <;> rfl

variable {position offset : ℕ} {files : List ARFile}

theorem inPlace_cons_deleted {next : ℕ} (deleted : file.deleted = true) (later : position < next) :
    InPlace position offset (file :: files) ↔ InPlace position next files := by
  constructor
  · intro inPlace
    rcases inPlace with all | ⟨_, last⟩
    · exact .inl (List.forall_mem_cons.mp all).2
    · exact .inl fun other inside => (List.pairwise_cons.mp last).1 other inside deleted
  · intro inPlace
    rcases inPlace with all | ⟨same, _⟩
    · exact .inl (List.forall_mem_cons.mpr ⟨deleted, all⟩)
    · exact absurd same (Nat.ne_of_lt later)

theorem inPlace_cons_surviving (survives : file.deleted = false) (next : ℕ) :
    InPlace position offset (file :: files) ↔ position = offset ∧ InPlace next next files := by
  have front (other : ARFile) (_ : other ∈ files) (deleted : file.deleted = true) :
      other.deleted = true :=
    absurd deleted (ne_true_of_eq_false survives)
  constructor
  · intro inPlace
    rcases inPlace with all | ⟨same, last⟩
    · exact absurd (List.forall_mem_cons.mp all).1 (ne_true_of_eq_false survives)
    · exact ⟨same, .inr ⟨rfl, (List.pairwise_cons.mp last).2⟩⟩
  · intro ⟨same, inPlace⟩
    rcases inPlace with all | ⟨_, last⟩
    · exact .inr ⟨same, List.pairwise_cons.mpr
        ⟨front, List.pairwise_of_forall_mem_list fun _ _ other inside _ => all other inside⟩⟩
    · exact .inr ⟨same, List.pairwise_cons.mpr ⟨front, last⟩⟩

theorem writeFiles_deleted (deleted : file.deleted = true) (out : Bytes) (files : List ARFile) :
    writeFiles out (file :: files) = writeFiles out files := by
  rw [writeFiles, List.foldlM_cons, if_pos deleted]
  rfl

theorem writeFiles_surviving (survives : file.deleted = false) (out : Bytes) (files : List ARFile) :
    writeFiles out (file :: files) = (writeFile out file).bind fun out => writeFiles out files := by
  rw [writeFiles, List.foldlM_cons, if_neg (ne_true_of_eq_false survives)]
  rfl

theorem surviving_deleted (deleted : file.deleted = true) (files : List ARFile) :
    surviving (file :: files) = surviving files := by
  rw [surviving, List.filter_cons_of_neg (by rw [deleted]; exact Bool.false_ne_true), surviving]

theorem surviving_surviving (survives : file.deleted = false) (files : List ARFile) :
    surviving (file :: files) = file :: surviving files := by
  rw [surviving, List.filter_cons_of_pos (by rw [survives]; rfl), surviving]

/-- The files are written exactly when the offsets agree, and then as entries. -/
theorem writeFiles_eq_some {out image : Bytes} (even : out.length % 2 = 0)
    (before : out.length ≤ offset) :
    writeFiles out (calculateFileOffsets offset files) = some image ↔
      InPlace out.length offset files ∧
        ((surviving (calculateFileOffsets offset files)).map ARFile.entry).foldlM writeEntry out =
          some image := by
  induction files generalizing out offset with
  | nil =>
    have inPlace : InPlace out.length offset [] := .inl fun _ absent => nomatch absent
    exact (and_iff_right inPlace).symm
  | cons file files ih =>
    rw [calculateFileOffsets]
    generalize isPlaced : ({ file with fileOffset := offset } : ARFile) = placed
    have sameMark : placed.deleted = file.deleted := by rw [← isPlaced]
    cases mark : file.deleted with
    | true =>
      have later : out.length < offset + align2 (file.contents.length + headerSize) := by
        rw [align2, headerSize]
        omega
      rw [mark] at sameMark
      rw [inPlace_cons_deleted mark later, writeFiles_deleted sameMark, surviving_deleted sameMark]
      exact ih even (Nat.le_of_lt later)
    | false =>
      rw [mark] at sameMark
      rw [inPlace_cons_surviving mark (offset + align2 (file.contents.length + headerSize)),
        writeFiles_surviving sameMark, surviving_surviving sameMark, List.map_cons,
        List.foldlM_cons, and_assoc]
      by_cases inPlace : out.length = offset
      · have atOffset : out.length = placed.fileOffset := by rw [inPlace, ← isPlaced]
        rw [writeFile_eq atOffset, and_iff_right inPlace]
        cases written : placed.entry.header.isSome with
        | false =>
          rw [writeEntry, Option.isNone_iff_eq_none.mp (Option.isSome_eq_false_iff.mp written)]
          exact iff_of_false (fun absent => nomatch absent) fun both => nomatch both.2
        | true =>
          have length : (out ++ placed.entry.bytes).length =
              offset + align2 (file.contents.length + headerSize) := by
            rw [List.length_append, Entry.length_bytes written, inPlace, ← isPlaced]
            rfl
          have evenNext : (out ++ placed.entry.bytes).length % 2 = 0 := by
            have even := Entry.even_length_bytes written
            rw [List.length_append]
            omega
          rw [writeEntry_eq even written, Option.bind_some, Option.bind_eq_bind,
            Option.bind_some, ih evenNext (Nat.le_of_eq length), length]
      · have elsewhere : out.length ≠ placed.fileOffset := by
          rw [← isPlaced]
          exact inPlace
        rw [writeFile, if_neg elsewhere]
        exact iff_of_false (fun absent => nomatch absent) fun both => inPlace both.1

/-- The files are at their offsets when the first is at a position. -/
def PlacedAt : ℕ → List ARFile → Prop
  | _, [] => True
  | position, file :: files =>
    file.fileOffset = position ∧ PlacedAt (position + file.entry.bytes.length) files

theorem surviving_of_deleted (all : ∀ file ∈ files, file.deleted = true) :
    surviving (calculateFileOffsets offset files) = [] := by
  induction files generalizing offset with
  | nil => rfl
  | cons file files ih =>
    rw [List.forall_mem_cons] at all
    have deleted : ({ file with fileOffset := offset } : ARFile).deleted = true := all.1
    rw [calculateFileOffsets, surviving_deleted deleted, ih all.2]

theorem placedAt_surviving (last : DeletedLast files)
    (written : ∀ file ∈ surviving (calculateFileOffsets offset files),
      file.entry.header.isSome = true) :
    PlacedAt offset (surviving (calculateFileOffsets offset files)) := by
  induction files generalizing offset with
  | nil => trivial
  | cons file files ih =>
    have later := List.pairwise_cons.mp last
    rw [calculateFileOffsets] at written ⊢
    generalize isPlaced : ({ file with fileOffset := offset } : ARFile) = placed at written ⊢
    have sameMark : placed.deleted = file.deleted := by rw [← isPlaced]
    cases mark : file.deleted with
    | true =>
      rw [surviving_deleted (sameMark.trans mark), surviving_of_deleted]
      · trivial
      · exact fun other inside => later.1 other inside mark
    | false =>
      rw [surviving_surviving (sameMark.trans mark)] at written ⊢
      rw [List.forall_mem_cons] at written
      have length : placed.entry.bytes.length = align2 (file.contents.length + headerSize) := by
        rw [Entry.length_bytes written.1, ← isPlaced]
        rfl
      refine ⟨by rw [← isPlaced], ?_⟩
      rw [length]
      exact ih later.2 written.2

theorem inPlace_placedAt (inPlace : InPlace position offset files)
    (written : ∀ file ∈ surviving (calculateFileOffsets offset files),
      file.entry.header.isSome = true) :
    PlacedAt position (surviving (calculateFileOffsets offset files)) := by
  rcases inPlace with all | ⟨rfl, last⟩
  · rw [surviving_of_deleted all]
    trivial
  · exact placedAt_surviving last written

theorem map_deleted_prepareExtendedFilenames (offset : ℕ) (files : List ARFile) :
    (prepareExtendedFilenames offset files).map ARFile.deleted = files.map ARFile.deleted := by
  induction files generalizing offset with
  | nil => rfl
  | cons file files ih =>
    rw [prepareExtendedFilenames]
    split
    · rw [List.map_cons, List.map_cons, ih]
    · rw [List.map_cons, List.map_cons, ih]

/-- Only the marks of the files decide whether they are in place. -/
theorem inPlace_congr {others : List ARFile}
    (same : files.map ARFile.deleted = others.map ARFile.deleted) :
    InPlace position offset files ↔ InPlace position offset others := by
  have marks (files : List ARFile) : InPlace position offset files ↔
      (∀ mark ∈ files.map ARFile.deleted, mark = true) ∨ (position = offset ∧
        (files.map ARFile.deleted).Pairwise fun earlier later => earlier = true → later = true) := by
    rw [InPlace, DeletedLast, List.forall_mem_map, List.pairwise_map]
  rw [marks, marks, same]

/-- Every file that is written is where its offset says. -/
def WrittenInPlace (builder : ARArchiveBuilder) : Prop :=
  (∀ file ∈ builder.files, file.deleted = true) ∨
    (builder.symbols.length ≠ 0 ∧ DeletedLast builder.files)

/-- The position of the first file, after the special members. -/
def firstPosition (builder : ARArchiveBuilder) (now : ℤ) : ℕ :=
  (archiveMagic ++ entriesBytes (specialEntries builder now)).length

theorem even_entriesBytes {entries : List Entry}
    (written : ∀ entry ∈ entries, entry.header.isSome = true) :
    (entriesBytes entries).length % 2 = 0 := by
  induction entries with
  | nil => rfl
  | cons entry entries ih =>
    rw [List.forall_mem_cons] at written
    have first := Entry.even_length_bytes written.1
    have rest := ih written.2
    rw [entriesBytes, List.flatMap_cons, List.length_append]
    rw [entriesBytes] at rest
    omega

variable {builder : ARArchiveBuilder} {now : ℤ}

theorem firstPosition_spec
    (written : ∀ entry ∈ specialEntries builder now, entry.header.isSome = true) :
    firstPosition builder now ≤ firstFileOffset builder ∧
      (firstPosition builder now = firstFileOffset builder ↔ builder.symbols.length ≠ 0) := by
  rw [specialEntries, List.forall_mem_append] at written
  rw [firstPosition, firstFileOffset, specialEntries, entriesBytes, List.flatMap_append,
    List.length_append, List.length_append]
  have names : (List.flatMap Entry.bytes (if (longFilenames builder.files).length = 0 then []
      else [extendedFilenamesEntry builder now])).length =
      if 0 < (longFilenames builder.files).length then
        align2 (headerSize + nextLongFilenameOffset builder.files) else 0 := by
    by_cases empty : (longFilenames builder.files).length = 0
    · rw [if_pos empty, if_neg (by omega)]
      rfl
    · rw [if_neg empty] at written ⊢
      rw [if_pos (Nat.pos_of_ne_zero empty), List.flatMap_singleton, Entry.length_bytes (written.2 _
        List.mem_cons_self), Nat.add_comm, ← length_extendedFilenamesContents]
      rfl
  have table : (List.flatMap Entry.bytes (if builder.symbols.length = 0 then []
      else [symbolTableEntry builder now])).length =
      if builder.symbols.length = 0 then 0 else align2 (symbolTableLength builder + headerSize) := by
    by_cases empty : builder.symbols.length = 0
    · rw [if_pos empty, if_pos empty]
      rfl
    · rw [if_neg empty] at written ⊢
      rw [if_neg empty, List.flatMap_singleton,
        Entry.length_bytes (written.1 _ List.mem_cons_self), ← length_symbolTableContents]
      rfl
  have magic : archiveMagic.length = 8 := rfl
  rw [names, table, magic]
  simp only [align2, headerSize]
  split <;> split <;> omega

/-- The assertions hold exactly when the files are written in place. -/
theorem inPlace_iff (written : ∀ entry ∈ specialEntries builder now, entry.header.isSome = true) :
    InPlace (firstPosition builder now) (firstFileOffset builder)
      (prepareExtendedFilenames 0 builder.files) ↔ WrittenInPlace builder := by
  rw [inPlace_congr (map_deleted_prepareExtendedFilenames 0 builder.files), InPlace,
    (firstPosition_spec written).2, WrittenInPlace]

/-- What is written: the magic string and the entries, when every assertion holds and every
header can be built. -/
theorem write_eq_some {image : Bytes} :
    write builder now = some image ↔
      WrittenInPlace builder ∧ (∀ entry ∈ archiveEntries builder now, entry.header.isSome = true) ∧
        image = archiveMagic ++ entriesBytes (archiveEntries builder now) := by
  have even (written : ∀ entry ∈ specialEntries builder now, entry.header.isSome = true) :
      firstPosition builder now % 2 = 0 := by
    have := even_entriesBytes written
    rw [firstPosition, List.length_append, show archiveMagic.length = 8 from rfl]
    omega
  have whole : write builder now =
      ((specialEntries builder now).foldlM writeEntry archiveMagic).bind fun out =>
        writeFiles out (preparedFiles builder) := by
    rw [write, specialEntries, List.foldlM_append, ← writeSymbolTable_eq, Option.bind_eq_bind,
      Option.bind_assoc]
    simp only [writeExtendedFilenames_eq]
  rw [whole, Option.bind_eq_some_iff, archiveEntries, List.forall_mem_append, entriesBytes,
    List.flatMap_append, ← List.append_assoc]
  constructor
  · intro ⟨out, special, files⟩
    rcases (foldlM_writeEntry (by decide)).mp special with ⟨written, rfl⟩
    rcases (writeFiles_eq_some (even written) (firstPosition_spec written).1).mp files with
      ⟨agrees, files⟩
    have members := (foldlM_writeEntry (even written)).mp files
    exact ⟨(inPlace_iff written).mp agrees, ⟨written, members.1⟩, members.2⟩
  · intro ⟨agrees, ⟨written, members⟩, same⟩
    refine ⟨archiveMagic ++ entriesBytes (specialEntries builder now), ?_, ?_⟩
    · exact (foldlM_writeEntry (by decide)).mpr ⟨written, rfl⟩
    · apply (writeFiles_eq_some (even written) (firstPosition_spec written).1).mpr
      exact ⟨(inPlace_iff written).mpr agrees, (foldlM_writeEntry (even written)).mpr ⟨members, same⟩⟩

end DaveCC.Archive
