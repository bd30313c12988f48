import DaveCC.Archive.ArchiveEntries

/-!
# The long names of an archive

A name of more than fifteen characters is recorded as a reference, which leads to the name in
the member of the long names.
-/

namespace DaveCC.Archive

open Arith

variable {offset : ℕ} {files : List ARFile} {file : ARFile}

/-- The names that `PrepareExtendedFilenames` collects are found at the offsets it sets. -/
theorem exists_drop_extendedFilename (inside : file ∈ prepareExtendedFilenames offset files)
    (isLong : 15 < file.filename.chars.length) :
    ∃ place rest, file.extendedFilenameOffset = offset + place ∧
      ((longFilenames files).flatMap fun filename => filename.chars ++ [newline]).drop place =
        file.filename.chars ++ newline :: rest := by
  induction files generalizing offset with
  | nil => cases inside
  | cons first files ih =>
    rw [prepareExtendedFilenames] at inside
    by_cases firstLong : 15 < first.filename.chars.length
    · rw [if_pos firstLong] at inside
      have names : longFilenames (first :: files) = first.filename :: longFilenames files := by
        rw [longFilenames, List.filter_cons_of_pos (by simpa using firstLong), List.map_cons,
          longFilenames]
      rw [names, List.flatMap_cons]
      rcases List.mem_cons.mp inside with rfl | inside
      · refine ⟨0, (longFilenames files).flatMap fun filename => filename.chars ++ [newline], rfl, ?_⟩
        rw [List.drop_zero, List.append_assoc]
        rfl
      · rcases ih inside with ⟨place, rest, isPlace, found⟩
        refine ⟨first.filename.chars.length + 1 + place, rest, ?_, ?_⟩
        · rw [isPlace]
          omega
        · rw [← List.drop_drop, List.drop_left' (by rw [List.length_append]; rfl), found]
    · rw [if_neg firstLong] at inside
      have names : longFilenames (first :: files) = longFilenames files := by
        rw [longFilenames, List.filter_cons_of_neg (by simpa using firstLong), longFilenames]
      rw [names]
      rcases List.mem_cons.mp inside with rfl | inside
      · exact absurd isLong firstLong
      · exact ih inside

theorem mem_calculateFileOffsets (inside : file ∈ calculateFileOffsets offset files) :
    ∃ source ∈ files, file = { source with fileOffset := file.fileOffset } := by
  induction files generalizing offset with
  | nil => cases inside
  | cons first files ih =>
    rcases List.mem_cons.mp inside with rfl | inside
    · exact ⟨first, List.mem_cons_self, rfl⟩
    · rcases ih inside with ⟨source, isSource, same⟩
      exact ⟨source, List.mem_cons_of_mem _ isSource, same⟩

/-- The long names lead to the name of every prepared file that has a long one. -/
theorem exists_drop_names {builder : ARArchiveBuilder} (inside : file ∈ preparedFiles builder)
    (isLong : 15 < file.filename.chars.length) :
    ∃ rest, (extendedFilenamesContents builder).drop file.extendedFilenameOffset =
      file.filename.chars ++ newline :: rest := by
  rcases mem_calculateFileOffsets inside with ⟨source, isSource, same⟩
  rw [same] at isLong ⊢
  rcases exists_drop_extendedFilename isSource isLong with ⟨place, rest, isPlace, found⟩
  rw [Nat.zero_add] at isPlace
  refine ⟨rest, ?_⟩
  rw [extendedFilenamesContents, ← found, ← isPlace]

theorem isDigit_digitChar {digit : ℕ} (small : digit < 10) : isDigit (digitChar digit) = true := by
  have value : (digitChar digit).toNat = 48 + digit := by
    rw [digitChar, BitVec.toNat_ofNat]
    omega
  rw [isDigit, value, Bool.and_eq_true, decide_eq_true_eq, decide_eq_true_eq]
  omega

/-- The start of a reference into the long names. -/
theorem reference_eq (offset : ℕ) :
    ∃ digit < 10, ∃ rest, (slash :: naturalText offset).take 15 = slash :: digitChar digit :: rest := by
  rcases List.exists_cons_of_ne_nil (naturalText_ne_nil offset) with ⟨char, chars, text⟩
  rcases mem_naturalText (text ▸ List.mem_cons_self : char ∈ naturalText offset) with
    ⟨digit, small, rfl⟩
  exact ⟨digit, small, chars.take 13, by rw [text]; rfl⟩

/-- A reference below the limit of the size field leads to the name that is there. -/
theorem readExtendedFilename_reference {image rest : Bytes} {start : ℕ}
    (isLong : 15 < file.filename.chars.length) (small : file.extendedFilenameOffset < 10 ^ 9)
    (there : image.drop (start + file.extendedFilenameOffset) = file.filename.chars ++ newline ::
      rest) :
    readExtendedFilename image start (recordedName file) = some file.filename.chars := by
  have short : (slash :: naturalText file.extendedFilenameOffset).length ≤ 15 := by
    have := (length_naturalText_le_iff (by decide)).mpr small
    rw [List.length_cons]
    omega
  rcases reference_eq file.extendedFilenameOffset with ⟨digit, isSmall, more, reference⟩
  have isReference : (recordedName file).head? = some slash ∧
      ((recordedName file)[1]?).any isDigit = true := by
    rw [recordedName, if_pos isLong, reference]
    exact ⟨rfl, isDigit_digitChar isSmall⟩
  have value : digitsValue 0 (recordedName file).tail = file.extendedFilenameOffset := by
    rw [recordedName, if_pos isLong, List.take_of_length_le short, List.tail_cons,
      digitsValue_naturalText, zero_mul, zero_add]
  have solid : ∀ char ∈ file.filename.chars, decide (char ≠ slash ∧ char ≠ newline) = true :=
    fun char inside => decide_eq_true (file.filename.plain char inside).2
  rw [readExtendedFilename, if_pos isReference, value, if_neg (by omega)]
  rw [show ((start : ℤ) + (file.extendedFilenameOffset : ℤ)).toNat =
    start + file.extendedFilenameOffset from by omega, there,
    List.takeWhile_append_of_pos solid, List.takeWhile_cons_of_neg (by decide), List.append_nil]

/-- A short name is not a reference. -/
theorem readExtendedFilename_short {image : Bytes} {start : ℕ}
    (short : ¬15 < file.filename.chars.length) :
    readExtendedFilename image start (recordedName file) = some (recordedName file) := by
  rw [readExtendedFilename, if_neg]
  intro isReference
  rw [recordedName, if_neg short] at isReference
  split at isReference
  · cases isReference.2
  · exact head?_ne_slash file.filename isReference.1

theorem recordedName_ne_names (file : ARFile) : recordedName file ≠ [slash, slash] := by
  intro same
  rw [recordedName] at same
  split at same
  · rcases reference_eq file.extendedFilenameOffset with ⟨digit, small, rest, reference⟩
    rw [reference] at same
    simp only [List.cons.injEq] at same
    exact digitChar_ne_slash small same.2.1
  · split at same
    · cases same
    · exact head?_ne_slash file.filename (by rw [same]; rfl)

/-- A member is taken for the symbol table when its name is empty. -/
theorem recordedName_eq_table : recordedName file = [slash] ↔ file.filename.chars = [] := by
  rw [recordedName]
  split
  · next isLong =>
      apply iff_of_false
      · rcases reference_eq file.extendedFilenameOffset with ⟨digit, small, rest, reference⟩
        rw [reference]
        simp
      · intro empty
        rw [empty] at isLong
        cases isLong
  · split
    · next empty => exact iff_of_true rfl empty
    · next nonempty =>
        apply iff_of_false _ nonempty
        intro same
        exact head?_ne_slash file.filename (by rw [same]; rfl)

end DaveCC.Archive

/-!
## The symbol table of an archive

What is read from a symbol table that was written: the file of every symbol is the one that
starts at the offset of the symbol, cast to `int`, and a name is found with the first symbol
that has it. The reader knows the file of every offset at which a header starts.
-/

namespace DaveCC.Archive

open Container

theorem toNat_ofInt_byte (value : ℤ) : ((BitVec.ofInt 8 value).toNat : ℤ) = value % 2 ^ 8 := by
  rw [BitVec.toNat_ofInt]
  omega

theorem readBigEndianInt_append (value : ℤ) (rest : Bytes) :
    readBigEndianInt (writeBigEndianInt value ++ rest) = (toInt32 value, rest) := by
  have bytes : ((value / 2 ^ 24 % 2 ^ 8 * 2 ^ 8 + value / 2 ^ 16 % 2 ^ 8) * 2 ^ 8 +
      value / 2 ^ 8 % 2 ^ 8) * 2 ^ 8 + value % 2 ^ 8 = value % 2 ^ 32 := by
    omega
  simp only [writeBigEndianInt, List.cons_append, List.nil_append, readBigEndianInt, readByte,
    toNat_ofInt_byte, bytes, toInt32]
  exact congrArg (·, rest) (Int.emod_bmod value (2 ^ 32))

theorem toInt32_natCast {value : ℕ} : toInt32 value = value ↔ value < 2 ^ 31 := by
  rw [toInt32, Int.bmod_def]
  split
  all_goals omega

/-! ## The offsets of the headers -/

/-- Where the headers of entries start. -/
def startsAt : ℕ → List Entry → List ℕ
  | _, [] => []
  | start, entry :: entries => start :: startsAt (start + entry.bytes.length) entries

theorem length_startsAt (start : ℕ) (entries : List Entry) :
    (startsAt start entries).length = entries.length := by
  induction entries generalizing start with
  | nil => rfl
  | cons entry entries ih => rw [startsAt, List.length_cons, List.length_cons, ih]

theorem startsAt_append (start : ℕ) (entries others : List Entry) :
    startsAt start (entries ++ others) =
      startsAt start entries ++ startsAt (start + (entriesBytes entries).length) others := by
  induction entries generalizing start with
  | nil => rfl
  | cons entry entries ih =>
    rw [List.cons_append, startsAt, startsAt, ih, entriesBytes, entriesBytes, List.flatMap_cons,
      List.length_append, Nat.add_assoc]
    rfl

variable {start : ℕ}

theorem startsAt_files {files : List ARFile} (placed : PlacedAt start files) :
    startsAt start (files.map ARFile.entry) = files.map ARFile.fileOffset := by
  induction files generalizing start with
  | nil => rfl
  | cons file files ih => rw [List.map_cons, startsAt, ih placed.2, List.map_cons, placed.1]

/-- The map knows the index of every start, and nothing else. -/
structure Indexed (map : SortedMap ℤ ℕ) (starts : List ℕ) : Prop where
  sorted : map.Sorted compare
  find : ∀ offset index, map.find compare offset = some index ↔
    ∃ start, starts[index]? = some start ∧ offset = start

theorem indexed_empty : Indexed {} [] where
  sorted := SortedMap.sorted_empty
  find offset index := by
    exact iff_of_false (fun absent => nomatch absent) fun ⟨_, absent, _⟩ => nomatch absent

theorem getElem?_append_singleton {α : Type*} {values : List α} {value found : α} {index : ℕ} :
    (values ++ [value])[index]? = some found ↔
      values[index]? = some found ∨ (index = values.length ∧ found = value) := by
  rw [List.getElem?_append]
  split
  · next inside => exact ⟨.inl, fun either => either.resolve_right fun atEnd => by omega⟩
  · next outside =>
      rw [List.getElem?_singleton, List.getElem?_eq_none (Nat.le_of_not_lt outside)]
      split
      · next first =>
          have atEnd : index = values.length := by omega
          simp only [Option.some.injEq, reduceCtorEq, atEnd, true_and, false_or]
          exact eq_comm
      · next later =>
          have beyond : index ≠ values.length := by omega
          simp [beyond]

variable {starts : List ℕ}

theorem Indexed.insert {map : SortedMap ℤ ℕ} (indexed : Indexed map starts)
    (after : ∀ earlier ∈ starts, earlier < start) :
    Indexed (map.insert compare start starts.length) (starts ++ [start]) where
  sorted := SortedMap.sorted_insert indexed.sorted _ _
  find offset index := by
    rw [SortedMap.find_insert indexed.sorted]
    simp only [getElem?_append_singleton]
    split
    · next same =>
        have isStart := Std.LawfulEqCmp.eq_of_compare same
        constructor
        · intro isLength
          exact ⟨start, .inr ⟨(Option.some.inj isLength).symm, rfl⟩, isStart⟩
        · intro ⟨found, either, isFound⟩
          rcases either with earlier | ⟨atEnd, _⟩
          · have before := after found (List.mem_of_getElem? earlier)
            omega
          · exact congrArg some atEnd.symm
    · next other =>
        rw [indexed.find]
        constructor
        · intro ⟨found, earlier, isFound⟩
          exact ⟨found, .inl earlier, isFound⟩
        · intro ⟨found, either, isFound⟩
          rcases either with earlier | ⟨_, rfl⟩
          · exact ⟨found, earlier, isFound⟩
          · exact absurd (isFound ▸ Std.ReflCmp.compare_self) other

/-- Reading entries indexes where their headers start. -/
theorem indexed_addFiles {archive : ARArchive} {entries : List Entry} {files : List ReadFile}
    (readAt : ReadAt start entries files)
    (written : ∀ entry ∈ entries, entry.header.isSome = true)
    (indexed : Indexed archive.fileOffsets starts) (count : starts.length = archive.files.length)
    (before : ∀ earlier ∈ starts, earlier < start) :
    Indexed (addFiles archive start entries files).fileOffsets
      (starts ++ startsAt start entries) := by
  induction entries generalizing start files archive starts with
  | nil =>
    rw [startsAt, List.append_nil]
    cases files <;> exact indexed
  | cons entry entries ih =>
    cases files with
    | nil => exact readAt.elim
    | cons file files =>
      rw [List.forall_mem_cons] at written
      rw [addFiles, startsAt, ← List.singleton_append, ← List.append_assoc]
      apply ih readAt.2 written.2
      · rw [ARArchive.addFile, ← count]
        exact indexed.insert before
      · rw [ARArchive.addFile, List.length_append, List.length_append, count]
        rfl
      · intro earlier inside
        have length := Entry.length_bytes written.1
        rw [align2, headerSize] at length
        rcases List.mem_append.mp inside with inside | inside
        · have := before earlier inside
          omega
        · have := List.mem_singleton.mp inside
          omega

variable {symbols : List ARSymbol}

/-- The loop finds the file of every symbol, by its offset as an `int`. -/
theorem readSymbolFiles_append (offset : ARSymbol → ℕ) (fileOffsets : SortedMap ℤ ℕ)
    (rest : Bytes) :
    readSymbolFiles fileOffsets symbols.length
        ((symbols.flatMap fun symbol => writeBigEndianInt (offset symbol)) ++ rest) =
      (symbols.mapM fun symbol => fileOffsets.find compare (toInt32 (offset symbol))).map
        fun files => (files, rest) := by
  induction symbols with
  | nil => rfl
  | cons symbol symbols ih =>
    rw [List.length_cons, List.flatMap_cons, List.append_assoc, readSymbolFiles,
      readBigEndianInt_append, List.mapM_cons]
    simp only [Option.bind_eq_bind, ih]
    cases fileOffsets.find compare (toInt32 (offset symbol)) with
    | none => rfl
    | some file =>
      cases symbols.mapM fun symbol => fileOffsets.find compare (toInt32 (offset symbol)) <;> rfl

theorem readSymbolName_append (name : SymbolName) (rest : Bytes) :
    readSymbolName (name.chars ++ 0 :: rest) = (name.chars, rest) := by
  cases name with
  | mk chars terminated =>
    induction chars with
    | nil => rfl
    | cons char chars ih =>
      rw [List.forall_mem_cons] at terminated
      change readSymbolName (char :: (chars ++ 0 :: rest)) = (char :: chars, rest)
      rw [readSymbolName, if_neg terminated.1, ih terminated.2]

theorem readSymbolNames_append {files : List ℕ} (count : files.length = symbols.length)
    (rest : Bytes) :
    readSymbolNames files ((symbols.flatMap fun symbol => symbol.name.chars ++ [0]) ++ rest) =
      List.zipWith (fun symbol file => { name := symbol.name.chars, file }) symbols files := by
  induction symbols generalizing files with
  | nil =>
    rw [List.length_eq_zero_iff.mp count]
    rfl
  | cons symbol symbols ih =>
    cases files with
    | nil => cases count
    | cons file files =>
      rw [List.flatMap_cons, List.append_assoc, List.append_assoc, List.singleton_append,
        readSymbolNames, readSymbolName_append]
      exact congrArg _ (ih (Nat.succ.inj count))

end DaveCC.Archive
