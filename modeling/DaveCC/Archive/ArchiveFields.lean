import DaveCC.Archive.ArchiveReader

/-!
# The fields of a header

What the reader makes of the fields that the writer writes. A number is read back exactly when
it is not negative and its text is shorter than its field. A name is read up to its slash, and
a reference into the long names up to its space.
-/

namespace DaveCC.Archive

open Arith

variable {digit : ℕ}

theorem digitChar_ne (small : digit < 10) {char : BitVec 8} (other : char.toInt < 48) :
    digitChar digit ≠ char := by
  intro same
  have value := toInt_digitChar small
  rw [same] at value
  omega

theorem digitChar_ne_space (small : digit < 10) : digitChar digit ≠ space :=
  digitChar_ne small (by decide)

theorem digitChar_ne_slash (small : digit < 10) : digitChar digit ≠ slash :=
  digitChar_ne small (by decide)

variable {text : Bytes}

/-- Characters other than a space are taken for digits. -/
theorem readInteger_append (value : ℤ) (solid : ∀ char ∈ text, char ≠ space) (rest : Bytes) :
    readInteger value (text ++ rest) = readInteger (digitsValue value text) rest := by
  induction text generalizing value with
  | nil => rfl
  | cons char text ih =>
    rw [List.cons_append, readInteger, if_neg (solid char List.mem_cons_self),
      ih _ fun other inside => solid other (List.mem_cons_of_mem _ inside)]
    rfl

theorem readInteger_spaces (value : ℤ) (count : ℕ) :
    readInteger value (List.replicate count space) = value := by
  cases count with
  | zero => rfl
  | succ count => rw [List.replicate_succ, readInteger, if_pos rfl]

theorem readInteger_terminator (value : ℤ) : readInteger value [0] = value * 10 - 48 := by
  have zero : (0 : BitVec 8).toInt = 0 := rfl
  rw [readInteger, if_neg (by decide), readInteger, zero, add_zero]

/-- The number that any characters are read as is bounded by their count. -/
theorem abs_readInteger_le (value : ℤ) (text : Bytes) :
    |readInteger value text| + 20 ≤ (|value| + 20) * 10 ^ text.length := by
  induction text generalizing value with
  | nil => rw [readInteger, List.length_nil, pow_zero, mul_one]
  | cons char text ih =>
    have power : (1 : ℤ) ≤ 10 ^ text.length := one_le_pow₀ (by norm_num)
    have lower := BitVec.le_toInt char
    have upper := BitVec.toInt_lt (x := char)
    rw [readInteger, List.length_cons, pow_succ]
    split
    · nlinarith [abs_nonneg value]
    · have step : |value * 10 + char.toInt - 48| + 20 ≤ (|value| + 20) * 10 := by
        cases abs_cases value <;> cases abs_cases (value * 10 + char.toInt - 48) <;> omega
      nlinarith [ih (value * 10 + char.toInt - 48)]

/-- The cast to `int` changes no number that a field of up to eight characters is read as. -/
theorem toInt32_readInteger (short : text.length ≤ 8) :
    toInt32 (readInteger 0 text) = readInteger 0 text := by
  have bound := abs_readInteger_le 0 text
  have power : (10 : ℤ) ^ text.length ≤ 10 ^ 8 := pow_le_pow_right₀ (by norm_num) short
  rw [abs_zero] at bound
  have bounds := abs_le.mp (show |readInteger 0 text| ≤ 2 * 10 ^ 9 by linarith)
  rw [toInt32, Int.bmod_def]
  omega

theorem solid_naturalText (value : ℕ) : ∀ char ∈ naturalText value, char ≠ space := by
  intro char inside
  rcases mem_naturalText inside with ⟨digit, small, rfl⟩
  exact digitChar_ne_space small

theorem solid_integerText (value : ℤ) : ∀ char ∈ integerText value, char ≠ space := by
  cases value with
  | ofNat value => exact solid_naturalText value
  | negSucc value =>
    intro char inside
    rcases List.mem_cons.mp inside with rfl | inside
    · decide
    · exact solid_naturalText _ char inside

theorem integerText_ne_nil (value : ℤ) : integerText value ≠ [] := by
  cases value with
  | ofNat value => exact naturalText_ne_nil value
  | negSucc value => exact List.cons_ne_nil _ _

variable {value : ℤ} {width : ℕ}

theorem length_integerText_le_iff (wide : 1 < width) :
    (integerText value).length ≤ width ↔ -10 ^ (width - 1) < value ∧ value < 10 ^ width := by
  have powers : (10 : ℤ) ^ width = 10 * 10 ^ (width - 1) := by
    rw [← pow_succ', Nat.sub_add_cancel (Nat.le_of_lt wide)]
  cases value with
  | ofNat value =>
    rw [integerText, length_naturalText_le_iff (Nat.lt_trans Nat.zero_lt_one wide),
      Int.ofNat_eq_natCast]
    constructor
    · intro below
      have below : (value : ℤ) < 10 ^ width := by exact_mod_cast below
      constructor <;> linarith
    · intro bounds
      exact_mod_cast bounds.2
  | negSucc value =>
    have shorter : (integerText (.negSucc value)).length ≤ width ↔
        (naturalText (value + 1)).length ≤ width - 1 := by
      rw [integerText, List.length_cons]
      omega
    rw [shorter, length_naturalText_le_iff (by omega), Int.negSucc_eq]
    constructor
    · intro below
      have below : (value + 1 : ℤ) < 10 ^ (width - 1) := by exact_mod_cast below
      constructor <;> linarith
    · intro bounds
      have below : (value + 1 : ℤ) < 10 ^ (width - 1) := by linarith
      exact_mod_cast below

/-- The text of a number does not overrun a field. -/
def Fits (value : ℤ) (width : ℕ) : Prop :=
  -10 ^ (width - 1) < value ∧ value < 10 ^ width

theorem isSome_writeLeftInt (wide : 1 < width) :
    (writeLeftInt value width).isSome = true ↔ Fits value width := by
  rw [Fits, ← length_integerText_le_iff wide, writeLeftInt]
  split
  · next short => exact iff_of_true rfl (Nat.le_of_lt short)
  · next long =>
      split
      · next full => exact iff_of_true rfl (Nat.le_of_eq full)
      · next other => exact iff_of_false Bool.false_ne_true (by omega)

variable {field : Bytes}

theorem length_writeLeftInt (written : writeLeftInt value width = some field) :
    field.length = width := by
  rw [writeLeftInt] at written
  split at written
  · next short =>
      rw [← Option.some.inj written, List.length_append, List.length_replicate]
      omega
  · split at written
    · next full =>
        have positive := List.length_pos_iff.mpr (integerText_ne_nil value)
        rw [← Option.some.inj written, List.length_append, List.length_dropLast,
          List.length_singleton]
        omega
    · cases written

/-- The digits of a text, after a start, without the last one. -/
theorem digitsValue_dropLast (start : ℤ) (value : ℕ) :
    ∃ digit : ℕ, digit < 10 ∧ digitsValue start (naturalText value).dropLast * 10 + digit =
      start * 10 ^ (naturalText value).length + value := by
  have nonempty := naturalText_ne_nil value
  rcases mem_naturalText (List.getLast_mem nonempty) with ⟨digit, small, last⟩
  have whole := digitsValue_naturalText start value
  rw [← List.dropLast_append_getLast nonempty, last, digitsValue_append] at whole
  have single (value : ℤ) : digitsValue value [digitChar digit] = value * 10 + digit := by
    change value * 10 + (digitChar digit).toInt - 48 = value * 10 + digit
    rw [toInt_digitChar small]
    ring
  rw [single, ← last, List.dropLast_append_getLast nonempty] at whole
  exact ⟨digit, small, whole⟩

/-- A natural number is read back exactly when its text is shorter than its field. -/
theorem readInteger_naturalText {value : ℕ} (written : writeLeftInt value width = some field) :
    readInteger 0 field = value ↔ (naturalText value).length < width := by
  rw [writeLeftInt] at written
  split at written
  · next short =>
      apply iff_of_true _ short
      rw [← Option.some.inj written, readInteger_append 0 (solid_integerText value),
        readInteger_spaces]
      change digitsValue 0 (naturalText value) = value
      rw [digitsValue_naturalText, zero_mul, zero_add]
  · next long =>
      apply iff_of_false _ long
      split at written
      · rcases digitsValue_dropLast 0 value with ⟨digit, small, last⟩
        have solid : ∀ char ∈ (integerText value).dropLast, char ≠ space :=
          fun char inside => solid_integerText value char (List.mem_of_mem_dropLast inside)
        rw [← Option.some.inj written, readInteger_append 0 solid, readInteger_terminator]
        change digitsValue 0 (naturalText value).dropLast * 10 - 48 ≠ value
        omega
      · cases written

theorem readInteger_negative {value : ℕ}
    (written : writeLeftInt (.negSucc value) width = some field) :
    readInteger 0 field ≠ .negSucc value := by
  have below : (value + 1 : ℤ) < 10 ^ (naturalText (value + 1)).length := by
    exact_mod_cast lt_pow_length_naturalText (value + 1)
  have sign (text : Bytes) : digitsValue 0 (45 :: text) = digitsValue (-3) text := rfl
  rw [writeLeftInt] at written
  split at written
  · rw [← Option.some.inj written, readInteger_append 0 (solid_integerText _), readInteger_spaces,
      integerText, sign, digitsValue_naturalText, Int.negSucc_eq]
    push_cast
    omega
  · split at written
    · rcases digitsValue_dropLast (-3) (value + 1) with ⟨digit, small, last⟩
      have solid : ∀ char ∈ (integerText (.negSucc value)).dropLast, char ≠ space :=
        fun char inside => solid_integerText _ char (List.mem_of_mem_dropLast inside)
      rw [← Option.some.inj written, readInteger_append 0 solid, readInteger_terminator,
        integerText, List.dropLast_cons_of_ne_nil (naturalText_ne_nil _), sign, Int.negSucc_eq]
      push_cast at last
      omega
    · cases written

/-- A number is read back exactly when it is not negative and shorter than its field. -/
theorem readInteger_writeLeftInt (wide : 1 < width)
    (written : writeLeftInt value width = some field) :
    readInteger 0 field = value ↔ 0 ≤ value ∧ value < 10 ^ (width - 1) := by
  cases value with
  | ofNat value =>
    rw [Int.ofNat_eq_natCast, readInteger_naturalText written]
    rw [← Nat.le_sub_one_iff_lt (Nat.lt_trans Nat.zero_lt_one wide),
      length_naturalText_le_iff (Nat.sub_pos_of_lt wide)]
    constructor
    · intro below
      exact ⟨Int.natCast_nonneg value, by exact_mod_cast below⟩
    · intro bounds
      exact_mod_cast bounds.2
  | negSucc value =>
    apply iff_of_false (readInteger_negative written)
    intro bounds
    exact absurd bounds.1 (Int.not_le.mpr (Int.negSucc_lt_zero value))

/-! ## Names -/

theorem readTo_append {stop : BitVec 8} (solid : ∀ char ∈ text, char ≠ stop) (rest : Bytes) :
    readTo stop (text ++ stop :: rest) = some text := by
  induction text with
  | nil => rw [List.nil_append, readTo, if_pos rfl]
  | cons char text ih =>
    rw [List.cons_append, readTo, if_neg (solid char List.mem_cons_self),
      ih fun other inside => solid other (List.mem_cons_of_mem _ inside)]
    rfl

theorem length_writeLeftString (fits : text.length ≤ width) :
    (writeLeftString text width).length = width := by
  rw [writeLeftString, List.length_append, List.length_replicate, Nat.add_sub_cancel' fits]

/-- The name that the field of a member is read as. -/
def recordedName (file : ARFile) : Bytes :=
  if 15 < file.filename.chars.length then (slash :: naturalText file.extendedFilenameOffset).take 15
  else if file.filename.chars = [] then [slash]
  else file.filename.chars

theorem head?_ne_slash (filename : MemberName) : filename.chars.head? ≠ some slash :=
  fun isSlash => (filename.plain slash (List.mem_of_head? isSlash)).2.1 rfl

theorem filenameField_short {file : ARFile} (short : ¬15 < file.filename.chars.length) :
    filenameField file = writeLeftString (file.filename.chars ++ [slash]) 16 := by
  rw [filenameField, if_neg short, writeLeftFilename, if_neg (head?_ne_slash _)]

theorem length_filenameField (file : ARFile) : (filenameField file).length = 16 := by
  by_cases isLong : 15 < file.filename.chars.length
  · rw [filenameField, if_pos isLong, length_writeLeftString]
    exact (List.length_take_le _ _).trans (by decide)
  · rw [filenameField_short isLong, length_writeLeftString]
    rw [List.length_append, List.length_singleton]
    omega

/-- A reference into the long names is read up to its first space. -/
theorem readFilename_reference (offset : ℕ) (rest : Bytes) :
    readFilename (writeLeftString ((slash :: naturalText offset).take 15) 16 ++ rest) =
      some ((slash :: naturalText offset).take 15) := by
  have solid : ∀ char ∈ (slash :: naturalText offset).take 15, char ≠ space := by
    intro char inside
    rcases List.mem_cons.mp (List.mem_of_mem_take inside) with rfl | inside
    · decide
    · exact solid_naturalText offset char inside
  have short := List.length_take_le 15 (slash :: naturalText offset)
  have padding : 16 - ((slash :: naturalText offset).take 15).length =
      15 - ((slash :: naturalText offset).take 15).length + 1 := by omega
  have spaced : writeLeftString ((slash :: naturalText offset).take 15) 16 ++ rest =
      (slash :: naturalText offset).take 15 ++ space :: (List.replicate
        (15 - ((slash :: naturalText offset).take 15).length) space ++ rest) := by
    rw [writeLeftString, padding, List.replicate_succ, List.append_assoc, List.cons_append]
  rcases List.exists_cons_of_ne_nil (naturalText_ne_nil offset) with ⟨char, chars, text⟩
  rcases mem_naturalText (text ▸ List.mem_cons_self : char ∈ naturalText offset) with
    ⟨digit, small, isDigit⟩
  rw [readFilename, spaced, if_pos, if_neg, if_neg, readTo_append solid]
  · rw [text, isDigit]
    simpa using digitChar_ne_space small
  · rw [text, isDigit]
    simpa using digitChar_ne_slash small
  · rw [List.take_succ_cons, List.cons_append, List.head?_cons]

/-- The name of a member is read as it is recorded, whatever follows its field. -/
theorem readFilename_filenameField (file : ARFile) (rest : Bytes) :
    readFilename (filenameField file ++ rest) = some (recordedName file) := by
  rw [recordedName]
  split
  · next isLong =>
      rw [filenameField, if_pos isLong]
      exact readFilename_reference _ rest
  · next short =>
      rw [filenameField_short short]
      split
      · next empty =>
          rw [empty]
          rfl
      · next nonempty =>
          have starts := head?_ne_slash file.filename
          have solid : ∀ char ∈ file.filename.chars, char ≠ slash :=
            fun char inside => (file.filename.plain char inside).2.1
          rw [readFilename, if_neg, writeLeftString, List.append_assoc, List.append_assoc,
            List.singleton_append, readTo_append solid]
          rw [writeLeftString, List.append_assoc, List.append_assoc,
            List.head?_append_of_ne_nil _ nonempty]
          exact starts

/-- A member as its header describes it: `name` is what the field of the name is read as. -/
structure Entry where
  field : Bytes
  name : Bytes
  owner : ℤ
  group : ℤ
  mode : ℤ
  timestamp : ℤ
  contents : Bytes
  length_field : field.length = 16
  read_field : ∀ rest, readFilename (field ++ rest) = some name

namespace Entry

def header (entry : Entry) : Option Bytes :=
  buildFileHeader entry.field entry.owner entry.group entry.mode entry.timestamp
    entry.contents.length

/-- What is read from the header of an entry. A number comes back exactly when its field is
wide enough. -/
structure ReadBack (entry : Entry) (fileOffset : ℕ) (file : ReadFile) : Prop where
  filename : file.filename = entry.name
  fileOffset : file.fileOffset = fileOffset
  size : file.size = entry.contents.length ↔ entry.contents.length < 10 ^ 9
  owner : file.owner = entry.owner ↔ 0 ≤ entry.owner ∧ entry.owner < 10 ^ 5
  group : file.group = entry.group ↔ 0 ≤ entry.group ∧ entry.group < 10 ^ 5
  mode : file.mode = entry.mode ↔ 0 ≤ entry.mode ∧ entry.mode < 10 ^ 7
  timestamp : file.timestamp = entry.timestamp ↔ 0 ≤ entry.timestamp ∧ entry.timestamp < 10 ^ 11

variable {entry : Entry} {header : Bytes}

theorem fields_of_header (built : entry.header = some header) :
    ∃ timestamp owner group mode size,
      writeLeftInt entry.timestamp 12 = some timestamp ∧ writeLeftInt entry.owner 6 = some owner ∧
      writeLeftInt entry.group 6 = some group ∧ writeLeftInt entry.mode 8 = some mode ∧
      writeLeftInt entry.contents.length 10 = some size ∧
      header = entry.field ++ timestamp ++ owner ++ group ++ mode ++ size ++ archiveFileEnd := by
  rw [Entry.header, buildFileHeader] at built
  simp only [Option.bind_eq_bind, Option.bind_eq_some_iff, Option.pure_def, Option.some.injEq]
    at built
  rcases built with ⟨size, isSize, owner, isOwner, group, isGroup, mode, isMode, timestamp,
    isTimestamp, rfl⟩
  exact ⟨timestamp, owner, group, mode, size, isTimestamp, isOwner, isGroup, isMode, isSize, rfl⟩

/-- A header can be built exactly when its numbers do not overrun their fields. -/
theorem isSome_header : entry.header.isSome = true ↔
    Fits entry.timestamp 12 ∧ Fits entry.owner 6 ∧ Fits entry.group 6 ∧ Fits entry.mode 8 ∧
      Fits entry.contents.length 10 := by
  rw [← isSome_writeLeftInt (by decide), ← isSome_writeLeftInt (by decide), ← isSome_writeLeftInt
    (by decide), ← isSome_writeLeftInt (by decide), ← isSome_writeLeftInt (by decide)]
  rw [Entry.header, buildFileHeader]
  cases writeLeftInt entry.contents.length 10 <;> cases writeLeftInt entry.owner 6 <;>
    cases writeLeftInt entry.group 6 <;> cases writeLeftInt entry.mode 8 <;>
    cases writeLeftInt entry.timestamp 12 <;> simp

theorem length_header (built : entry.header = some header) : header.length = headerSize := by
  rcases fields_of_header built with
    ⟨timestamp, owner, group, mode, size, isTimestamp, isOwner, isGroup, isMode, isSize, rfl⟩
  simp only [List.length_append, entry.length_field, length_writeLeftInt isTimestamp,
    length_writeLeftInt isOwner, length_writeLeftInt isGroup, length_writeLeftInt isMode,
    length_writeLeftInt isSize]
  rfl

theorem slice_append {before middle : Bytes} {start count : ℕ} (starts : before.length = start)
    (counts : middle.length = count) (after : Bytes) :
    ((before ++ (middle ++ after)).drop start).take count = middle := by
  rw [List.drop_left' starts, List.take_left' counts]

/-- A header that was built is read. -/
theorem exists_readFileHeader (built : entry.header = some header) (fileOffset : ℕ) :
    ∃ file, readFileHeader header fileOffset = some file ∧ entry.ReadBack fileOffset file := by
  rcases fields_of_header built with
    ⟨timestamp, owner, group, mode, size, isTimestamp, isOwner, isGroup, isMode, isSize, rfl⟩
  have beforeTimestamp := entry.length_field
  have beforeOwner : (entry.field ++ timestamp).length = 28 := by
    rw [List.length_append, beforeTimestamp, length_writeLeftInt isTimestamp]
  have beforeGroup : (entry.field ++ timestamp ++ owner).length = 34 := by
    rw [List.length_append, beforeOwner, length_writeLeftInt isOwner]
  have beforeMode : (entry.field ++ timestamp ++ owner ++ group).length = 40 := by
    rw [List.length_append, beforeGroup, length_writeLeftInt isGroup]
  have beforeSize : (entry.field ++ timestamp ++ owner ++ group ++ mode).length = 48 := by
    rw [List.length_append, beforeMode, length_writeLeftInt isMode]
  have beforeEnd : (entry.field ++ timestamp ++ owner ++ group ++ mode ++ size).length = 58 := by
    rw [List.length_append, beforeSize, length_writeLeftInt isSize]
  have name := entry.read_field (timestamp ++ owner ++ group ++ mode ++ size ++ archiveFileEnd)
  have timestampSlice := slice_append beforeTimestamp (length_writeLeftInt isTimestamp)
    (owner ++ group ++ mode ++ size ++ archiveFileEnd)
  have ownerSlice := slice_append beforeOwner (length_writeLeftInt isOwner)
    (group ++ mode ++ size ++ archiveFileEnd)
  have groupSlice := slice_append beforeGroup (length_writeLeftInt isGroup)
    (mode ++ size ++ archiveFileEnd)
  have modeSlice := slice_append beforeMode (length_writeLeftInt isMode) (size ++ archiveFileEnd)
  have sizeSlice := slice_append beforeSize (length_writeLeftInt isSize) archiveFileEnd
  have endSlice := slice_append beforeEnd (show archiveFileEnd.length = 2 from rfl) []
  have small {text : Bytes} {value : ℤ} {width : ℕ} (written : writeLeftInt value width = some text)
      (narrow : width ≤ 8) (wide : 1 < width) : toInt32 (readInteger 0 text) = value ↔
        0 ≤ value ∧ value < 10 ^ (width - 1) := by
    rw [toInt32_readInteger (length_writeLeftInt written ▸ narrow)]
    exact readInteger_writeLeftInt wide written
  rw [List.append_nil] at endSlice
  simp only [List.append_assoc] at name timestampSlice ownerSlice groupSlice modeSlice
  simp only [List.append_assoc] at sizeSlice endSlice ⊢
  rw [readFileHeader, if_pos endSlice, name]
  refine ⟨_, rfl, rfl, rfl, ?_, ?_, ?_, ?_, ?_⟩
  · rw [sizeSlice, readInteger_writeLeftInt (by decide) isSize]
    norm_cast
    exact and_iff_right (Nat.zero_le _)
  · rw [ownerSlice]
    exact small isOwner (by decide) (by decide)
  · rw [groupSlice]
    exact small isGroup (by decide) (by decide)
  · rw [modeSlice]
    exact small isMode (by decide) (by decide)
  · rw [timestampSlice]
    exact readInteger_writeLeftInt (by decide) isTimestamp

end Entry

end DaveCC.Archive
