import DaveCC.Debug.DebugLine

/-!
# The tables of files and directories

The tables of a unit are read back. The path of a file is its registered path when the
directories were first met in the order in which the map holds them.
-/

namespace DaveCC.Debug

open DaveCC.Arith DaveCC.Container

theorem readString_append {name : Bytes} (terminated : 0 ∉ name) (rest : Bytes) :
    readString (name ++ 0 :: rest) = some (name, rest) := by
  induction name with
  | nil => rfl
  | cons byte name ih =>
    rw [List.mem_cons, not_or] at terminated
    rw [List.cons_append, readString, if_neg (Ne.symm terminated.1), ih terminated.2]
    rfl

variable {fuel : Nat}

/-- Entries whose rest the reader reads back. -/
theorem readEntries_append {α β : Type} {reader : Bytes → Bytes → Option (α × Bytes)}
    (name tail : β → Bytes) (value : β → α) {items : List β}
    (named : ∀ item ∈ items, name item ≠ [] ∧ 0 ∉ name item)
    (reads : ∀ item ∈ items, ∀ rest, reader (name item) (tail item ++ rest) =
      some (value item, rest)) (enough : items.length < fuel) (rest : Bytes) :
    readEntries reader fuel (items.flatMap (fun item => name item ++ [0] ++ tail item) ++ 0 :: rest) =
      some (items.map value, rest) := by
  induction items generalizing fuel with
  | nil =>
    cases fuel with
    | zero => cases enough
    | succ fuel => rfl
  | cons item items ih =>
    cases fuel with
    | zero => cases enough
    | succ fuel =>
      have ⟨nonempty, terminated⟩ := named item List.mem_cons_self
      have later := ih (fun other listed => named other (List.mem_cons_of_mem _ listed))
        (fun other listed => reads other (List.mem_cons_of_mem _ listed))
        (Nat.lt_of_succ_lt_succ enough)
      simp only [List.flatMap_cons, List.append_assoc, List.cons_append, List.nil_append] at later ⊢
      rw [readEntries, readString_append terminated, Option.bind_some, if_neg nonempty,
        reads item List.mem_cons_self, Option.bind_some, later]
      rfl

/-- What stands before and after the last slash. -/
theorem lastSlash_split {filename : Bytes} {index : Nat} (found : lastSlash filename = some index) :
    filename = filename.take index ++ 47 :: filename.drop (index + 1) := by
  have slash := List.find?_some found
  simp only [beq_iff_eq] at slash
  rcases List.getElem?_eq_some_iff.mp slash with ⟨inside, own⟩
  rw [← own, List.cons_getElem_drop_succ, List.take_append_drop]

namespace FilePath

variable (path : FilePath)

/-- The directory of a path, without the slash after it. -/
def directory : Option Bytes :=
  (lastSlash path.bytes).map path.bytes.take

/-- The name of a path after its last slash. -/
def basename : Bytes :=
  match lastSlash path.bytes with
  | none => path.bytes
  | some index => path.bytes.drop (index + 1)

variable {path}

theorem bytes_eq {directory : Bytes} (inside : path.directory = some directory) :
    path.bytes = directory ++ 47 :: path.basename := by
  rw [FilePath.directory] at inside
  rw [basename]
  cases found : lastSlash path.bytes with
  | none =>
    rw [found] at inside
    cases inside
  | some index =>
    rw [found] at inside
    cases inside
    exact lastSlash_split found

theorem basename_of_none (outside : path.directory = none) : path.basename = path.bytes := by
  rw [directory, Option.map_eq_none_iff] at outside
  rw [basename, outside]

theorem basename_ne_nil : path.basename ≠ [] := by
  intro empty
  cases inside : path.directory with
  | none => exact path.nonempty (basename_of_none inside ▸ empty)
  | some directory =>
    have split := bytes_eq inside
    rw [empty] at split
    apply path.named
    rw [split, List.getLast?_concat]

theorem terminated_basename : 0 ∉ path.basename := by
  intro listed
  apply path.terminated
  cases inside : path.directory with
  | none => rwa [← basename_of_none inside]
  | some directory =>
    rw [bytes_eq inside]
    exact List.mem_append_right _ (List.mem_cons_of_mem _ listed)

theorem terminated_directory {directory : Bytes} (inside : path.directory = some directory) :
    0 ∉ directory := by
  intro listed
  apply path.terminated
  rw [bytes_eq inside]
  exact List.mem_append_left _ listed

end FilePath

/-- The directories of paths in the order in which they are first met. -/
def directories (paths : List FilePath) : List Bytes :=
  paths.foldl
    (fun known path =>
      match path.directory with
      | none => known
      | some directory => if directory ∈ known then known else known ++ [directory])
    []

/-- `DwarfAddFile` in terms of the directory and the name. -/
theorem dwarfAddFile_eq (dwarf : Dwarf) (path : FilePath) :
    dwarfAddFile dwarf path.bytes =
      match path.directory with
      | none => { dwarf with fileTable := dwarf.fileTable ++ [⟨path.basename, 0⟩] }
      | some directory =>
        match dwarf.directoryTable.find compareStrings directory with
        | none =>
          { dwarf with
            directoryTable :=
              dwarf.directoryTable.insert compareStrings directory dwarf.nextDirIndex
            nextDirIndex := dwarf.nextDirIndex + 1
            fileTable := dwarf.fileTable ++ [⟨path.basename, dwarf.nextDirIndex - 1⟩] }
        | some dirPlusOne =>
          { dwarf with
            fileTable := dwarf.fileTable ++ [⟨path.basename, dirPlusOne - 1⟩] } := by
  rw [dwarfAddFile, FilePath.directory, FilePath.basename]
  cases lastSlash path.bytes <;> rfl

/-- The tables hold the directories and the names of the paths. -/
structure Registered (paths : List FilePath) (dwarf : Dwarf) : Prop where
  sorted : dwarf.directoryTable.Sorted compareStrings
  keys : ∀ entry ∈ dwarf.directoryTable.values, ∃ path ∈ paths, path.directory = some entry.1
  names : dwarf.fileTable.map FileEntry.filename = paths.map FilePath.basename

variable {dwarf : Dwarf} {paths : List FilePath}

variable {map : SortedMap Bytes Nat} {key : Bytes} {value : Nat} {entry : Bytes × Nat}

theorem mem_insert (sorted : map.Sorted compareStrings)
    (listed : entry ∈ (map.insert compareStrings key value).values) :
    entry.1 = key ∨ entry ∈ map.values := by
  have inserts := SortedMap.inserts_insert sorted key value
  generalize (map.insert compareStrings key value).values = result at inserts listed
  generalize map.values = values at inserts ⊢
  cases inserts with
  | replace front same =>
    rcases List.mem_append.mp listed with before | later
    · exact .inr (List.mem_append_left _ before)
    · rcases List.mem_cons.mp later with rfl | later
      · exact .inl (Std.LawfulEqCmp.eq_of_compare same).symm
      · exact .inr (List.mem_append_right _ (List.mem_cons_of_mem _ later))
  | between front _ _ =>
    rcases List.mem_append.mp listed with before | later
    · exact .inr (List.mem_append_left _ before)
    · rcases List.mem_cons.mp later with rfl | later
      · exact .inl rfl
      · exact .inr (List.mem_append_right _ later)

theorem Registered.dwarfAddFile (registered : Registered paths dwarf) (path : FilePath) :
    Registered (paths ++ [path]) (dwarfAddFile dwarf path.bytes) := by
  have before (entry : Bytes × Nat) (listed : entry ∈ dwarf.directoryTable.values) :
      ∃ other ∈ paths ++ [path], other.directory = some entry.1 := by
    rcases registered.keys entry listed with ⟨other, inside, own⟩
    exact ⟨other, List.mem_append_left _ inside, own⟩
  have names (dir : Nat) :
      (dwarf.fileTable ++ [FileEntry.mk path.basename dir]).map FileEntry.filename =
        (paths ++ [path]).map FilePath.basename := by
    rw [List.map_append, List.map_append, registered.names]
    rfl
  rw [dwarfAddFile_eq]
  split
  · exact ⟨registered.sorted, before, names _⟩
  · next directory inside =>
    split
    · refine ⟨SortedMap.sorted_insert registered.sorted _ _, ?_, names _⟩
      intro entry listed
      rcases mem_insert registered.sorted listed with own | listed
      · exact ⟨path, List.mem_append_right _ List.mem_cons_self, own ▸ inside⟩
      · exact before entry listed
    · exact ⟨registered.sorted, before, names _⟩

/-! ## Directories that are first met in their order -/

theorem directories_concat (paths : List FilePath) (path : FilePath) :
    directories (paths ++ [path]) =
      match path.directory with
      | none => directories paths
      | some directory =>
        if directory ∈ directories paths then directories paths
        else directories paths ++ [directory] := by
  rw [directories, List.foldl_concat]
  rfl

/-- The name and the directory of a file are those of a path. -/
def Resolves (known : List Bytes) (file : FileEntry) (path : FilePath) : Prop :=
  file.filename = path.basename ∧
    ((file.dir = 0 ∧ path.directory = none) ∨
      ∃ directory, 0 < file.dir ∧ known[file.dir - 1]? = some directory ∧
        path.directory = some directory)

/-- The map holds the directories in the order in which they were first met. -/
structure InFirstUse (paths : List FilePath) (dwarf : Dwarf) : Prop where
  table : dwarf.directoryTable.values =
    (directories paths).mapIdx fun index directory => (directory, index + 2)
  next : dwarf.nextDirIndex = (directories paths).length + 2
  files : List.Forall₂ (Resolves (directories paths)) dwarf.fileTable paths

variable {known : List Bytes}

theorem Resolves.append {file : FileEntry} {path : FilePath} (resolves : Resolves known file path)
    (more : List Bytes) : Resolves (known ++ more) file path := by
  rcases resolves with ⟨named, none | ⟨directory, positive, found, own⟩⟩
  · exact ⟨named, .inl none⟩
  · have inside := (List.getElem?_eq_some_iff.mp found).1
    exact ⟨named, .inr ⟨directory, positive, by rw [List.getElem?_append_left inside, found], own⟩⟩

theorem mem_table :
    entry ∈ known.mapIdx (fun index directory => (directory, index + 2)) ↔
      2 ≤ entry.2 ∧ known[entry.2 - 2]? = some entry.1 := by
  rw [List.mem_mapIdx]
  constructor
  · rintro ⟨index, inside, rfl⟩
    exact ⟨Nat.le_add_left _ _, List.getElem?_eq_getElem inside⟩
  · rintro ⟨least, found⟩
    rcases List.getElem?_eq_some_iff.mp found with ⟨inside, own⟩
    exact ⟨entry.2 - 2, inside, Prod.ext own (Nat.sub_add_cancel least)⟩

/-- A directory after all others is put at the end. -/
theorem insert_last (sorted : map.Sorted compareStrings)
    (above : ∀ entry ∈ map.values, compareStrings entry.1 key = .lt) :
    (map.insert compareStrings key value).values = map.values ++ [(key, value)] := by
  have inserts := SortedMap.inserts_insert sorted key value
  generalize (map.insert compareStrings key value).values = result at inserts ⊢
  generalize map.values = values at inserts above ⊢
  cases inserts with
  | @replace front back entry same =>
    have smaller := above entry (List.mem_append_right _ List.mem_cons_self)
    have equal : compareStrings entry.1 entry.1 = .eq := Std.ReflCmp.compare_self
    rw [Std.LawfulEqCmp.eq_of_compare same, equal] at smaller
    cases smaller
  | @between front back smaller larger =>
    cases back with
    | nil => rw [List.append_nil]
    | cons entry back =>
      have smaller := above entry (List.mem_append_right _ List.mem_cons_self)
      have larger := larger entry List.mem_cons_self
      rw [Std.OrientedCmp.gt_of_lt smaller] at larger
      cases larger

/-- What a search of the map finds. -/
theorem InFirstUse.find (inFirstUse : InFirstUse paths dwarf) (directory : Bytes) :
    match dwarf.directoryTable.find compareStrings directory with
    | none => directory ∉ directories paths
    | some dirPlusOne => 2 ≤ dirPlusOne ∧ (directories paths)[dirPlusOne - 2]? = some directory := by
  rw [SortedMap.find, inFirstUse.table]
  cases found : ((directories paths).mapIdx fun index directory => (directory, index + 2)).find?
      fun entry => compareStrings directory entry.1 == .eq with
  | none =>
    intro listed
    rcases List.getElem_of_mem listed with ⟨index, inside, own⟩
    have entry : (directory, index + 2) ∈ (directories paths).mapIdx
        fun index directory => (directory, index + 2) :=
      mem_table.mpr ⟨Nat.le_add_left _ _, own ▸ List.getElem?_eq_getElem inside⟩
    have equal : compareStrings directory directory = .eq := Std.ReflCmp.compare_self
    simpa [equal] using List.find?_eq_none.mp found _ entry
  | some entry =>
    have listed := mem_table.mp (List.mem_of_find?_eq_some found)
    have equal : compareStrings directory entry.1 = .eq := by
      simpa using List.find?_some found
    rw [Std.LawfulEqCmp.eq_of_compare equal]
    exact listed

theorem InFirstUse.dwarfAddFile (inFirstUse : InFirstUse paths dwarf) (path : FilePath)
    (sorted : dwarf.directoryTable.Sorted compareStrings) (ordered : (directories (paths ++
      [path])).Pairwise fun first second => compareStrings first second = .lt) :
    InFirstUse (paths ++ [path]) (dwarfAddFile dwarf path.bytes) := by
  rw [dwarfAddFile_eq]
  cases inside : path.directory with
  | none =>
    have same : directories (paths ++ [path]) = directories paths := by
      rw [directories_concat, inside]
    constructor
    · rw [same]
      exact inFirstUse.table
    · rw [same]
      exact inFirstUse.next
    · rw [same]
      exact List.rel_append inFirstUse.files (.cons ⟨rfl, .inl ⟨rfl, inside⟩⟩ .nil)
  | some directory =>
    have search := inFirstUse.find directory
    cases found : dwarf.directoryTable.find compareStrings directory with
    | some dirPlusOne =>
      rw [found] at search
      simp only [found]
      have known := List.mem_of_getElem? search.2
      have same : directories (paths ++ [path]) = directories paths := by
        rw [directories_concat, inside]
        exact if_pos known
      constructor
      · rw [same]
        exact inFirstUse.table
      · rw [same]
        exact inFirstUse.next
      · rw [same]
        apply List.rel_append inFirstUse.files (.cons ⟨rfl, .inr ⟨directory, _, _, inside⟩⟩ .nil)
        · exact Nat.sub_pos_of_lt search.1
        · exact search.2
    | none =>
      rw [found] at search
      simp only [found]
      have grown : directories (paths ++ [path]) = directories paths ++ [directory] := by
        rw [directories_concat, inside]
        exact if_neg search
      rw [grown] at ordered
      have above : ∀ entry ∈ dwarf.directoryTable.values,
          compareStrings entry.1 directory = .lt := by
        intro entry listed
        rw [inFirstUse.table] at listed
        have known := List.mem_of_getElem? (mem_table.mp listed).2
        exact (List.pairwise_append.mp ordered).2.2 entry.1 known directory List.mem_cons_self
      constructor
      · rw [grown, insert_last sorted above, inFirstUse.table, inFirstUse.next, List.mapIdx_concat]
      · rw [grown, inFirstUse.next, List.length_append]
        rfl
      · rw [grown]
        have later := inFirstUse.files.imp fun _ _ resolves => resolves.append [directory]
        apply List.rel_append later (.cons ⟨rfl, .inr ⟨directory, _, _, inside⟩⟩ .nil)
        · rw [inFirstUse.next]
          exact Nat.succ_pos _
        · rw [inFirstUse.next]
          exact List.getElem?_concat_length

theorem readDirectories (named : ∀ entry ∈ dwarf.directoryTable.values, entry.1 ≠ [] ∧ 0 ∉ entry.1)
    (enough : dwarf.directoryTable.values.length < fuel) (rest : Bytes) :
    readEntries readDirectory fuel (directoryBytes dwarf ++ rest) =
      some (dwarf.directoryTable.values.map Prod.fst, rest) := by
  have reads := readEntries_append Prod.fst (fun _ => []) Prod.fst named
    (fun entry _ rest => (rfl : readDirectory entry.1 rest = some (entry.1, rest))) enough rest
  simpa [directoryBytes] using reads

/-- A file as the tables hold it. -/
def FileEntry.listed (file : FileEntry) : Bytes × Nat :=
  (file.filename, file.dir % 2 ^ 32)

theorem readFile_fileBytes (file : FileEntry) (rest : Bytes) :
    readFile file.filename (uleb128 5 (file.dir % 2 ^ 32) ++ uleb128 5 0 ++ uleb128 5 0 ++ rest) =
      some (file.listed, rest) := by
  have zeroBytes : uleb128 5 0 = [0] := rfl
  have zero (rest : Bytes) : readUleb128 (0 :: rest) = some (0, 1) := rfl
  rw [readFile, zeroBytes, List.append_assoc, List.append_assoc,
    readUleb128_word (Nat.mod_lt _ (by decide))]
  simp only [Option.bind_eq_bind, Option.bind_some, List.drop_left, List.singleton_append, zero,
    Nat.add_assoc, List.drop_length_add_append, List.drop_succ_cons, List.drop_zero]
  rfl

theorem readFiles (named : ∀ file ∈ dwarf.fileTable, file.filename ≠ [] ∧ 0 ∉ file.filename)
    (enough : dwarf.fileTable.length < fuel) (rest : Bytes) :
    readEntries readFile fuel (dwarf.fileTable.flatMap fileBytes ++ 0 :: rest) =
      some (dwarf.fileTable.map FileEntry.listed, rest) := by
  have reads := readEntries_append FileEntry.filename
    (fun file => uleb128 5 (file.dir % 2 ^ 32) ++ uleb128 5 0 ++ uleb128 5 0) FileEntry.listed named
    (fun file _ rest => readFile_fileBytes file rest) enough rest
  have same : (fun file : FileEntry => file.filename ++ [0] ++
      (uleb128 5 (file.dir % 2 ^ 32) ++ uleb128 5 0 ++ uleb128 5 0)) = fileBytes := by
    funext file
    simp [fileBytes]
  rwa [same] at reads

/-- The path of a file in the tables, unless there are too many directories. -/
theorem Resolves.path {known : List Bytes} {file : FileEntry} {path : FilePath}
    (resolves : Resolves known file path) (few : known.length < 2 ^ 32) (files : List (Bytes × Nat)) :
    LineTables.path ⟨known, files⟩ file.listed = some path.bytes := by
  rcases resolves with ⟨named, ⟨none, own⟩ | ⟨directory, positive, found, own⟩⟩
  · rw [LineTables.path, FileEntry.listed, none, named, FilePath.basename_of_none own]
    rfl
  · have inside := (List.getElem?_eq_some_iff.mp found).1
    have small : file.dir % 2 ^ 32 = file.dir := Nat.mod_eq_of_lt (by omega)
    rw [LineTables.path, FileEntry.listed, small, if_neg (Nat.ne_of_gt positive)]
    simp [found, named, FilePath.bytes_eq own]

end DaveCC.Debug
