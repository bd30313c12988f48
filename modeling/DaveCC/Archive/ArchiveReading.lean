import DaveCC.Archive.ArchiveSymbols
import DaveCC.Container.Pointwise

/-!
# Reading the entries of an archive

The walk over an archive that was written reads the special members and the files one after
another, each with its contents behind its header. It finds the symbol table and the long
names when there are any, and no file is mistaken for them unless its name is empty.
-/

namespace DaveCC.Archive

open Container

/-- A member that is written: a special one, or a file. -/
inductive Member where
  | special (entry : Entry)
  | file (file : ARFile)

namespace Member

def entry : Member → Entry
  | .special entry => entry
  | .file archived => archived.entry

/-- A file is written at its offset. -/
def At (start : ℕ) : Member → Prop
  | .special _ => True
  | .file archived => archived.fileOffset = start

/-- What the walk reads of a member. -/
structure ReadAs (image : Bytes) (member : Member) (read : ReadFile) : Prop where
  readBack : member.entry.ReadBack read.fileOffset read
  contents : ∃ rest, image.drop read.fileOffset = member.entry.contents ++ rest
  position : ∃ start, read.fileOffset = start + headerSize ∧ member.At start

end Member

/-- Files are written at their offsets when the first member is at a position. -/
def MembersAt : ℕ → List Member → Prop
  | _, [] => True
  | start, member :: members =>
    member.At start ∧ MembersAt (start + member.entry.bytes.length) members

/-- The members of an archive, in the order in which they are written. -/
def archiveMembers (builder : ARArchiveBuilder) (now : ℤ) : List Member :=
  (specialEntries builder now).map .special ++ (surviving (preparedFiles builder)).map .file

theorem map_entry_archiveMembers (builder : ARArchiveBuilder) (now : ℤ) :
    (archiveMembers builder now).map Member.entry = archiveEntries builder now := by
  rw [archiveMembers, List.map_append, List.map_map, List.map_map, archiveEntries]
  congr 1
  exact List.map_id _

variable {start : ℕ}

theorem membersAt_files {files : List ARFile} (placed : PlacedAt start files) :
    MembersAt start (files.map .file) := by
  induction files generalizing start with
  | nil => trivial
  | cons file files ih => exact ⟨placed.1, ih placed.2⟩

variable {entries : List Entry} {members : List Member}

theorem membersAt_special (placed : MembersAt (start + (entriesBytes entries).length) members) :
    MembersAt start (entries.map .special ++ members) := by
  induction entries generalizing start with
  | nil => exact placed
  | cons entry entries ih =>
    refine ⟨trivial, ih ?_⟩
    rw [entriesBytes, List.flatMap_cons, List.length_append, ← Nat.add_assoc] at placed
    exact placed

/-- The contents of an entry are behind its header. -/
theorem drop_header {image rest : Bytes} {entry : Entry} (written : entry.header.isSome = true)
    (ahead : image.drop start = entry.bytes ++ rest) :
    ∃ more, image.drop (start + headerSize) = entry.contents ++ more := by
  rcases Option.isSome_iff_exists.mp written with ⟨header, built⟩
  refine ⟨List.replicate (entry.contents.length % 2) 0 ++ rest, ?_⟩
  rw [← List.drop_drop, ahead, Entry.bytes, built, Option.getD_some, List.append_assoc,
    List.drop_left' (Entry.length_header built), List.append_assoc]

/-- The files are read pointwise from the members. -/
theorem forall₂_readAs {image : Bytes} {files : List ReadFile}
    (readAt : ReadAt start (members.map Member.entry) files) (placed : MembersAt start members)
    (written : ∀ member ∈ members, member.entry.header.isSome = true)
    (ahead : image.drop start = entriesBytes (members.map Member.entry)) :
    List.Forall₂ (Member.ReadAs image) members files := by
  induction members generalizing start files with
  | nil =>
    cases files with
    | nil => exact .nil
    | cons file files => exact readAt.elim
  | cons member members ih =>
    cases files with
    | nil => exact readAt.elim
    | cons file files =>
      rw [List.forall_mem_cons] at written
      rw [List.map_cons, entriesBytes, List.flatMap_cons] at ahead
      have position := readAt.1.fileOffset
      have next : image.drop (start + member.entry.bytes.length) =
          entriesBytes (members.map Member.entry) := by
        rw [← List.drop_drop, ahead, List.drop_left, entriesBytes]
      refine .cons ⟨?_, ?_, start, position, placed.1⟩ (ih readAt.2 placed.2 written.2 next)
      · rw [position]
        exact readAt.1
      · rw [position]
        exact drop_header written.1 ahead

/-! ## What the walk finds -/

theorem files_addFiles {files : List ReadFile} (readAt : ReadAt start entries files)
    (archive : ARArchive) :
    (addFiles archive start entries files).files = archive.files ++ files := by
  induction entries generalizing start files archive with
  | nil =>
    cases files with
    | nil => exact (List.append_nil _).symm
    | cons file files => exact readAt.elim
  | cons entry entries ih =>
    cases files with
    | nil => exact readAt.elim
    | cons file files =>
      rw [addFiles, ih readAt.2, ARArchive.addFile, List.append_assoc]
      rfl

theorem symbolTable_addFiles (start : ℕ) (entries : List Entry) (files : List ReadFile)
    (archive : ARArchive) :
    (addFiles archive start entries files).symbolTable = archive.symbolTable := by
  induction entries generalizing start files archive with
  | nil => cases files <;> rfl
  | cons entry entries ih =>
    cases files with
    | nil => rfl
    | cons file files => exact ih _ _ _

/-- What no file of another name sets is left as it is found. -/
theorem get_addFiles {Value : Type*} {name : Bytes} (get : ARArchive → Value)
    (keeps : ∀ (archive : ARArchive) offset file, file.filename ≠ name →
      get (archive.addFile offset file) = get archive)
    {files : List ReadFile} (readAt : ReadAt start entries files)
    (others : ∀ entry ∈ entries, entry.name ≠ name) (archive : ARArchive) :
    get (addFiles archive start entries files) = get archive := by
  induction entries generalizing start files archive with
  | nil => cases files <;> rfl
  | cons entry entries ih =>
    cases files with
    | nil => exact readAt.elim
    | cons file files =>
      rw [List.forall_mem_cons] at others
      rw [addFiles, ih readAt.2 others.2, keeps]
      rw [readAt.1.filename]
      exact others.1

theorem symbolTableFile_addFiles {files : List ReadFile} (readAt : ReadAt start entries files)
    (others : ∀ entry ∈ entries, entry.name ≠ [slash]) (archive : ARArchive) :
    (addFiles archive start entries files).symbolTableFile = archive.symbolTableFile :=
  get_addFiles ARArchive.symbolTableFile (fun _ _ _ other => if_neg other) readAt others archive

theorem extendedFilenamesOffset_addFiles {files : List ReadFile}
    (readAt : ReadAt start entries files)
    (others : ∀ entry ∈ entries, entry.name ≠ [slash, slash]) (archive : ARArchive) :
    (addFiles archive start entries files).extendedFilenamesOffset =
      archive.extendedFilenamesOffset :=
  get_addFiles ARArchive.extendedFilenamesOffset (fun _ _ _ other => if_neg other) readAt others archive

theorem readAt_append {others : List Entry} {files : List ReadFile}
    (readAt : ReadAt start (entries ++ others) files) :
    ∃ front back, ReadAt start entries front ∧
      ReadAt (start + (entriesBytes entries).length) others back ∧
      ∀ archive, addFiles archive start (entries ++ others) files =
        addFiles (addFiles archive start entries front)
          (start + (entriesBytes entries).length) others back := by
  induction entries generalizing start files with
  | nil => exact ⟨[], files, trivial, readAt, fun _ => rfl⟩
  | cons entry entries ih =>
    cases files with
    | nil => exact readAt.elim
    | cons file files =>
      rcases ih readAt.2 with ⟨front, back, isFront, isBack, same⟩
      have position : start + (entriesBytes (entry :: entries)).length =
          start + entry.bytes.length + (entriesBytes entries).length := by
        rw [entriesBytes, List.flatMap_cons, List.length_append, Nat.add_assoc, entriesBytes]
      rw [position]
      exact ⟨file :: front, back, ⟨readAt.1, isFront⟩, isBack, fun archive => same _⟩

section Found

variable {builder : ARArchiveBuilder} {now : ℤ} {image : Bytes} {files : List ReadFile}
variable (readAt : ReadAt 8 (archiveEntries builder now) files)
variable (written : ∀ entry ∈ archiveEntries builder now, entry.header.isSome = true)
variable (ahead : image.drop 8 = entriesBytes (archiveEntries builder now))

include readAt

theorem symbolTableFile_none (nonempty : ∀ file ∈ surviving (preparedFiles builder),
      file.filename.chars ≠ []) (noSymbols : builder.symbols.length = 0) :
    (addFiles .new 8 (archiveEntries builder now) files).symbolTableFile = none := by
  apply symbolTableFile_addFiles readAt
  intro entry inside
  rw [archiveEntries, specialEntries, if_pos noSymbols, List.nil_append] at inside
  rcases List.mem_append.mp inside with inside | inside
  · split at inside
    · cases inside
    · rw [List.mem_singleton.mp inside]
      intro same
      cases same
  · rcases List.mem_map.mp inside with ⟨file, isFile, rfl⟩
    exact fun isTable => nonempty file isFile (recordedName_eq_table.mp isTable)

include written ahead

theorem symbolTableFile_some (nonempty : ∀ file ∈ surviving (preparedFiles builder),
      file.filename.chars ≠ []) (someSymbols : builder.symbols.length ≠ 0) :
    ∃ read rest, (addFiles .new 8 (archiveEntries builder now) files).symbolTableFile = some read ∧
      image.drop read.fileOffset = symbolTableContents builder ++ rest := by
  have split : archiveEntries builder now = symbolTableEntry builder now ::
      ((if (longFilenames builder.files).length = 0 then []
        else [extendedFilenamesEntry builder now]) ++
          (surviving (preparedFiles builder)).map ARFile.entry) := by
    rw [archiveEntries, specialEntries, if_neg someSymbols]
    rfl
  rw [split] at readAt written ahead ⊢
  cases files with
  | nil => exact readAt.elim
  | cons read files =>
    rw [List.forall_mem_cons] at written
    rcases drop_header written.1 ahead with ⟨rest, found⟩
    refine ⟨read, rest, ?_, ?_⟩
    · rw [addFiles, symbolTableFile_addFiles readAt.2, ARArchive.addFile, readAt.1.filename]
      · rfl
      · intro entry inside
        rcases List.mem_append.mp inside with inside | inside
        · split at inside
          · cases inside
          · rw [List.mem_singleton.mp inside]
            intro same
            cases same
        · rcases List.mem_map.mp inside with ⟨file, isFile, rfl⟩
          exact fun isTable => nonempty file isFile (recordedName_eq_table.mp isTable)
    · rw [readAt.1.fileOffset]
      exact found

theorem extendedFilenamesOffset_spec (someNames : (longFilenames builder.files).length ≠ 0) :
    ∃ rest, image.drop (addFiles .new 8 (archiveEntries builder now) files).extendedFilenamesOffset =
      extendedFilenamesContents builder ++ rest := by
  have split : archiveEntries builder now =
      (if builder.symbols.length = 0 then [] else [symbolTableEntry builder now]) ++
        (extendedFilenamesEntry builder now ::
          (surviving (preparedFiles builder)).map ARFile.entry) := by
    rw [archiveEntries, specialEntries, if_neg someNames, List.append_assoc]
    rfl
  rw [split] at readAt written ahead ⊢
  generalize (if builder.symbols.length = 0 then [] else [symbolTableEntry builder now]) = front
    at readAt written ahead ⊢
  rcases readAt_append readAt with ⟨frontFiles, back, _, isBack, same⟩
  rw [List.forall_mem_append, List.forall_mem_cons] at written
  have next : image.drop (8 + (entriesBytes front).length) =
      (extendedFilenamesEntry builder now).bytes ++
        ((surviving (preparedFiles builder)).map ARFile.entry).flatMap Entry.bytes := by
    rw [← List.drop_drop, ahead, entriesBytes, entriesBytes, List.flatMap_append, List.drop_left,
      List.flatMap_cons]
  rcases drop_header written.2.1 next with ⟨rest, found⟩
  cases back with
  | nil => exact isBack.elim
  | cons read files =>
    refine ⟨rest, ?_⟩
    rw [same, addFiles, extendedFilenamesOffset_addFiles isBack.2, ARArchive.addFile,
      isBack.1.filename, isBack.1.fileOffset]
    · rw [if_pos (show (extendedFilenamesEntry builder now).name = [slash, slash] from rfl)]
      exact found
    · intro entry inside
      rcases List.mem_map.mp inside with ⟨file, _, rfl⟩
      exact recordedName_ne_names file

end Found

end DaveCC.Archive
