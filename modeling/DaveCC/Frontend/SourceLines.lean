import DaveCC.Frontend.TranslationPhases

/-!
# Lines of a source

Reading a source line by line yields the logical lines of its text, as long as no splice
uncovers another backslash. The bytes of a string are those of a file with the NUL that
ends the string.
-/

namespace DaveCC.Frontend

section Appending

variable {newline : List UInt8} {i : Nat}

theorem drop_eq_cons (inside : i < newline.length) :
    newline.drop i = newline.getD i 0 :: newline.drop (i + 1) := by
  rw [List.getD_eq_getElem?_getD, List.getElem?_eq_getElem inside, Option.getD_some]
  exact List.drop_eq_getElem_cons inside

theorem replaceTrigraphs_drop (inside : i + 2 < newline.length) :
    replaceTrigraphs (newline.drop i) =
      match trigraphOf (newline.getD i 0) (newline.getD (i + 1) 0) (newline.getD (i + 2) 0) with
      | some replacement => replacement :: replaceTrigraphs (newline.drop (i + 3))
      | none => newline.getD i 0 :: replaceTrigraphs (newline.drop (i + 1)) := by
  have first : newline.drop i = newline.getD i 0 :: newline.drop (i + 1) :=
    drop_eq_cons (by omega)
  have second : newline.drop (i + 1) = newline.getD (i + 1) 0 :: newline.drop (i + 2) :=
    drop_eq_cons (by omega)
  have third : newline.drop (i + 2) = newline.getD (i + 2) 0 :: newline.drop (i + 3) :=
    drop_eq_cons inside
  rw [first, second, third]
  exact replaceTrigraphs.eq_1 _ _ _ _

theorem replaceTrigraphs_drop_short (inside : i < newline.length) (short : newline.length ≤ i + 2) :
    replaceTrigraphs (newline.drop i) =
      newline.getD i 0 :: replaceTrigraphs (newline.drop (i + 1)) := by
  have length (k : Nat) (after : i ≤ k) : (newline.drop k).length < 3 := by
    rw [List.length_drop]
    omega
  rw [replaceTrigraphs_short (length i (Nat.le_refl i)),
    replaceTrigraphs_short (length (i + 1) (Nat.le_succ i))]
  exact drop_eq_cons inside

/-- On a line that is too short for a trigraph the subtraction wraps around, but there
the byte behind the line is its NUL. -/
theorem inside_of_marks (inside : i < newline.length) (below : i < sizeSub newline.length 2)
    (second : newline.getD (i + 1) 0 = byteOf '?') : i + 2 < newline.length := by
  rw [sizeSub] at below
  split at below
  · omega
  · have outside : newline.getD (i + 1) 0 = 0 := by
      rw [List.getD_eq_getElem?_getD, List.getElem?_eq_none (by omega), Option.getD_none]
    rw [outside] at second
    cases second

/-- A physical line is appended with its trigraphs replaced. -/
theorem appendFrom_eq (newline : List UInt8) (i : Nat) (line : List UInt8) :
    appendFrom newline i line = line ++ replaceTrigraphs (newline.drop i) := by
  induction i, line using appendFrom.induct newline with
  | case1 i line more c marks replacement found ih =>
    have inside := inside_of_marks more marks.2.1 marks.2.2
    have isTrigraph : trigraphOf c (newline.getD (i + 1) 0) (newline.getD (i + 2) 0) =
        some replacement := by
      rw [trigraphOf, if_pos ⟨marks.1, marks.2.2⟩, found]
    rw [appendFrom, dif_pos more]
    simp only [c] at marks isTrigraph
    simp only [if_pos marks, found]
    rw [ih, replaceTrigraphs_drop inside, isTrigraph, List.append_assoc]
    rfl
  | case2 i line more c marks found ih =>
    have inside := inside_of_marks more marks.2.1 marks.2.2
    have plain : trigraphOf c (newline.getD (i + 1) 0) (newline.getD (i + 2) 0) = none := by
      rw [trigraphOf, if_pos ⟨marks.1, marks.2.2⟩, found]
    rw [appendFrom, dif_pos more]
    simp only [c] at marks plain ih
    simp only [if_pos marks, found]
    rw [ih, replaceTrigraphs_drop inside, plain, List.append_assoc]
    rfl
  | case3 i line more c other ih =>
    have plain : replaceTrigraphs (newline.drop i) =
        newline.getD i 0 :: replaceTrigraphs (newline.drop (i + 1)) := by
      by_cases inside : i + 2 < newline.length
      · have below : i < sizeSub newline.length 2 := by
          rw [sizeSub, if_pos (by omega)]
          omega
        have none : trigraphOf c (newline.getD (i + 1) 0) (newline.getD (i + 2) 0) = none :=
          if_neg fun marks => other ⟨marks.1, below, marks.2⟩
        rw [replaceTrigraphs_drop inside, none]
      · exact replaceTrigraphs_drop_short more (Nat.le_of_not_lt inside)
    rw [appendFrom, dif_pos more]
    rw [if_neg other, ih, plain, List.append_assoc]
    rfl
  | case4 i line ended =>
    rw [appendFrom, dif_neg ended, List.drop_eq_nil_of_le (Nat.le_of_not_lt ended)]
    exact (List.append_nil line).symm

theorem startIndex_eq (atStart : Bool) (newline : List UInt8) :
    newline.drop (Source.startIndex atStart newline) =
      if atStart then dropMark newline else newline := by
  cases atStart with
  | false => rfl
  | true =>
    rw [Source.startIndex, dropMark]
    rcases newline with _ | ⟨first, _ | ⟨second, _ | ⟨third, rest⟩⟩⟩
    · simp
    · simp
    · simp
    · by_cases marks : first = 0xef ∧ second = 0xbb ∧ third = 0xbf
      · obtain ⟨rfl, rfl, rfl⟩ := marks
        rfl
      · have stays : ¬(0xef = first ∧ 0xbb = second ∧ 0xbf = third) := by
          rintro ⟨rfl, rfl, rfl⟩
          exact marks ⟨rfl, rfl, rfl⟩
        simp [marks, stays]

end Appending

namespace Source

/-- The bytes that are still to be read, with the NUL that ends a string. -/
def unread (src : Source) : List UInt8 :=
  match src.device with
  | .file none => []
  | .file (some unread) => unread
  | .string value index => (value ++ [0]).drop index

/-- No byte of a string is taken for the end of the source. -/
def Plain (src : Source) : Prop :=
  ∀ value index, src.device = .string value index → 0xff ∉ value

/-- The source a number of bytes later. -/
def skip (count : Nat) (src : Source) : Source :=
  match src.device with
  | .file none => src
  | .file (some unread) => { src with device := .file (some (unread.drop count)) }
  | .string value index => { src with device := .string value (index + count) }

end Source

section Reading

variable {src : Source} {byte : UInt8} {bytes line newline text : List UInt8}

theorem unread_skip (count : Nat) : (src.skip count).unread = src.unread.drop count := by
  obtain ⟨device, lineno, atStart, reachedEof⟩ := src
  cases device with
  | file unread => cases unread <;> simp [Source.skip, Source.unread]
  | string value index => simp [Source.skip, Source.unread, List.drop_drop]

theorem plain_skip (plain : src.Plain) (count : Nat) : (src.skip count).Plain := by
  obtain ⟨device, lineno, atStart, reachedEof⟩ := src
  cases device with
  | file unread => cases unread <;> exact fun _ _ isString => by cases isString
  | string value index =>
    intro _ _ isString
    cases isString
    exact plain value index rfl

theorem skip_skip (first second : Nat) :
    (src.skip first).skip second = src.skip (first + second) := by
  obtain ⟨device, lineno, atStart, reachedEof⟩ := src
  cases device with
  | file unread => cases unread <;> simp [Source.skip, List.drop_drop]
  | string value index => simp [Source.skip, Nat.add_assoc]

theorem charOfInt_eq {ch : Int} (same : ch % 256 = byte.toNat) : charOfInt ch = byte := by
  rw [charOfInt, same, Int.toNat_natCast, UInt8.ofNat_toNat]

theorem charOfInt_toNat (byte : UInt8) : charOfInt byte.toNat = byte := by
  apply charOfInt_eq
  have bound := byte.toNat_lt
  omega

theorem signedChar_cases (byte : UInt8) :
    signedChar byte = byte.toNat ∧ byte.toNat < 128 ∨
      signedChar byte = byte.toNat - 256 ∧ 128 ≤ byte.toNat := by
  have low : byte < 128 ↔ byte.toNat < 128 := UInt8.lt_iff_toNat_lt
  rw [signedChar]
  split
  · next below => exact .inl ⟨rfl, low.mp below⟩
  · next above => exact .inr ⟨rfl, Nat.le_of_not_lt (mt low.mpr above)⟩

theorem charOfInt_signedChar (byte : UInt8) : charOfInt (signedChar byte) = byte := by
  apply charOfInt_eq
  have bound := byte.toNat_lt
  rcases signedChar_cases byte with ⟨same, low⟩ | ⟨shifted, high⟩
  · omega
  · omega

theorem toNat_eq_newline_iff : byte.toNat = (byteOf '\n').toNat ↔ byte = byteOf '\n' :=
  UInt8.toNat_inj

/-- The next byte of a string is one of its bytes or the NUL that ends it. -/
theorem getD_of_drop {value : List UInt8} {index : Nat}
    (next : (value ++ [0]).drop index = byte :: bytes) :
    index ≤ value.length ∧ value.getD index 0 = byte ∧ (byte ∈ value ∨ byte = 0) := by
  have at_index : (value ++ [0])[index]? = some byte := by
    have head := congrArg (·[0]?) next
    simpa using head
  have inside : index < (value ++ [0]).length := (List.getElem?_eq_some_iff.mp at_index).1
  rw [List.length_append] at inside
  have bound : index ≤ value.length := Nat.le_of_lt_succ inside
  refine ⟨bound, ?_, by simpa using List.mem_of_getElem? at_index⟩
  rw [List.getD_eq_getElem?_getD]
  rcases Nat.lt_or_eq_of_le bound with before | atEnd
  · rw [List.getElem?_append_left before] at at_index
    rw [at_index, Option.getD_some]
  · subst atEnd
    simpa using at_index

/-- A byte is read as itself. -/
theorem getChar_cons (plain : src.Plain) (next : src.unread = byte :: bytes) :
    src.getChar.1 ≠ eofChar ∧ charOfInt src.getChar.1 = byte ∧
      (src.getChar.1 = (byteOf '\n').toNat ↔ byte = byteOf '\n') ∧
      src.getChar.2 = src.skip 1 := by
  obtain ⟨device, lineno, atStart, reachedEof⟩ := src
  cases device with
  | file unread =>
    match unread with
    | none => cases next
    | some unread =>
      have next : unread = byte :: bytes := next
      subst next
      refine ⟨?_, charOfInt_toNat byte, Int.ofNat_inj.trans toNat_eq_newline_iff, rfl⟩
      change (byte.toNat : Int) ≠ -1
      omega
  | string value index =>
    obtain ⟨inside, isByte, origin⟩ := getD_of_drop next
    have getChar_eq : Source.getChar ⟨.string value index, lineno, atStart, reachedEof⟩ =
        (signedChar byte, ⟨.string value (index + 1), lineno, atStart, reachedEof⟩) := by
      rw [← isByte]
      exact if_neg (Nat.not_lt.mpr inside)
    have ordinary : byte.toNat ≠ 255 := by
      intro same
      have isLast : byte = 0xff := UInt8.toNat_inj.mp same
      rcases origin with member | nul
      · exact plain value index rfl (isLast ▸ member)
      · rw [nul] at isLast
        cases isLast
    have newline : (byteOf '\n').toNat = 10 := rfl
    have ends : byte.toNat = (byteOf '\n').toNat ↔ byte = byteOf '\n' := toNat_eq_newline_iff
    have bound := byte.toNat_lt
    rw [getChar_eq]
    refine ⟨?_, charOfInt_signedChar byte, ?_, rfl⟩
    · change signedChar byte ≠ -1
      rcases signedChar_cases byte with ⟨same, low⟩ | ⟨shifted, high⟩ <;> omega
    · rw [← ends, newline]
      change signedChar byte = 10 ↔ _
      rcases signedChar_cases byte with ⟨same, low⟩ | ⟨shifted, high⟩ <;> omega

theorem getChar_nil (nothing : src.unread = []) : src.getChar.1 = eofChar := by
  obtain ⟨device, lineno, atStart, reachedEof⟩ := src
  cases device with
  | file unread =>
    match unread with
    | none => rfl
    | some unread =>
      have nothing : unread = [] := nothing
      subst nothing
      rfl
  | string value index =>
    have past : value.length < index := by
      have nothing : (value ++ [0]).drop index = [] := nothing
      rw [List.drop_eq_nil_iff, List.length_append] at nothing
      exact nothing
    exact congrArg Prod.fst (if_pos past)

/-- A physical line that a newline ends. -/
theorem readNewline_line (plain : src.Plain) (unbroken : byteOf '\n' ∉ line)
    (next : src.unread = line ++ byteOf '\n' :: text) :
    src.readNewline newline = (newline ++ line, src.skip (line.length + 1)) := by
  induction line generalizing src newline with
  | nil =>
    obtain ⟨more, -, ends, after⟩ := getChar_cons plain next
    rw [Source.readNewline, dif_neg more, if_pos (ends.mpr rfl), after, List.append_nil]
    rfl
  | cons byte line ih =>
    obtain ⟨more, isByte, ends, after⟩ := getChar_cons plain next
    have first : byte ≠ byteOf '\n' := fun same => unbroken (same ▸ List.mem_cons_self)
    have rest : (src.skip 1).unread = line ++ byteOf '\n' :: text := by
      rw [unread_skip, next]
      rfl
    rw [Source.readNewline, dif_neg more, if_neg (mt ends.mp first), isByte, after,
      ih (plain_skip plain 1) (fun member => unbroken (List.mem_cons_of_mem _ member)) rest,
      skip_skip, List.append_assoc, List.length_cons, Nat.add_comm 1]
    rfl

theorem skip_zero : src.skip 0 = src := by
  obtain ⟨device, lineno, atStart, reachedEof⟩ := src
  cases device with
  | file unread => cases unread <;> rfl
  | string value index => rfl

/-- A physical line that the end of the source ends. -/
theorem readNewline_end (plain : src.Plain) (unbroken : byteOf '\n' ∉ line)
    (last : src.unread = line) :
    src.readNewline newline = (newline ++ line,
      (src.skip line.length).getChar.2.endLine (newline ++ line)) := by
  induction line generalizing src newline with
  | nil =>
    rw [Source.readNewline, dif_pos (getChar_nil last), List.append_nil, List.length_nil, skip_zero]
  | cons byte line ih =>
    obtain ⟨more, isByte, ends, after⟩ := getChar_cons plain last
    have first : byte ≠ byteOf '\n' := fun same => unbroken (same ▸ List.mem_cons_self)
    have rest : (src.skip 1).unread = line := by
      rw [unread_skip, last]
      rfl
    rw [Source.readNewline, dif_neg more, if_neg (mt ends.mp first), isByte, after,
      ih (plain_skip plain 1) (fun member => unbroken (List.mem_cons_of_mem _ member)) rest,
      skip_skip, List.append_assoc, List.length_cons, Nat.add_comm 1]
    rfl

end Reading

/-! ## Logical lines -/

section Joining

variable {number : Nat} {joined line front : List UInt8} {lines : List (List UInt8)}

/-- The lines that count, with the number of the last physical line of each. -/
def numbered (lines : List LogicalLine) : List (Nat × List UInt8) :=
  (lines.filter LogicalLine.counts).map fun line => (line.last, line.text)

/-- What has been joined so far, with the logical lines that follow it from a physical
line on. -/
def continueWith (number : Nat) (joined : List UInt8) : List LogicalLine → List LogicalLine
  | [] => [⟨number, number, joined, false⟩]
  | next :: rest => ⟨number, next.last, joined ++ next.text, next.ended⟩ :: rest

/-- The lines that are read from a physical line on. -/
def linesAfter (number : Nat) (joined : List UInt8) (lines : List (List UInt8)) :
    List (Nat × List UInt8) :=
  numbered (continueWith number joined (joinLines spliced number lines))

theorem numbered_cons_congr {line other : LogicalLine} {rest : List LogicalLine}
    (last : line.last = other.last) (text : line.text = other.text)
    (ended : line.ended = other.ended) : numbered (line :: rest) = numbered (other :: rest) := by
  have counts : line.counts = other.counts := by
    rw [LogicalLine.counts, LogicalLine.counts, text, ended]
  rw [numbered, numbered, List.filter_cons, List.filter_cons, counts]
  split
  · rw [List.map_cons, List.map_cons, last, text]
  · rfl

theorem linesAfter_nil :
    linesAfter number joined [] = if joined = [] then [] else [(number, joined)] := by
  cases joined <;> rfl

theorem linesAfter_none (unspliced : spliced line = none) :
    linesAfter number joined (line :: lines) =
      (number, joined ++ line) :: numbered (joinLines spliced (number + 1) lines) := by
  rw [linesAfter, joinLines, unspliced]
  rfl

theorem linesAfter_some (isSpliced : spliced line = some front) :
    linesAfter number joined (line :: lines) =
      linesAfter (number + 1) (joined ++ front) lines := by
  rw [linesAfter, linesAfter, joinLines, isSpliced]
  cases joinLines spliced (number + 1) lines with
  | nil => exact numbered_cons_congr rfl rfl rfl
  | cons next rest =>
    exact numbered_cons_congr rfl (List.append_assoc joined front next.text).symm rfl

theorem linesAfter_nothing :
    linesAfter number [] lines = numbered (joinLines spliced number lines) := by
  rw [linesAfter]
  cases joinLines spliced number lines with
  | nil => rfl
  | cons next rest => exact numbered_cons_congr rfl rfl rfl

end Joining

namespace Source

/-- The lines that are read when a line has been begun. -/
def linesFor (joined : List UInt8) (src : Source) : List (Nat × List UInt8) :=
  let read := src.readLine joined
  if read.1 = [] ∧ read.2.eof = true then [] else (read.2.lineno, read.1) :: read.2.readLines

/-- The source after a physical line. -/
def afterLine (src : Source) : Source :=
  let read := src.readNewline []
  { read.2 with lineno := read.2.lineno + 1, atStart := false }

/-- The next physical line, translated. -/
def physicalLine (src : Source) : List UInt8 :=
  let read := src.readNewline []
  replaceTrigraphs (if src.atStart then dropMark read.1 else read.1)

end Source

section ReadingLines

variable {src : Source} {joined front : List UInt8}

theorem readLines_eq_linesFor (more : src.eof = false) : src.readLines = src.linesFor [] := by
  rw [Source.readLines, dif_pos more]
  rfl

theorem readLines_of_eof (ended : src.eof = true) : src.readLines = [] := by
  rw [Source.readLines, dif_neg (by simp [ended])]

theorem readLine_unfold (more : src.eof = false) :
    src.readLine joined =
      match spliced (joined ++ src.physicalLine) with
      | some front => src.afterLine.readLine front
      | none => (joined ++ src.physicalLine, src.afterLine) := by
  rw [Source.readLine, dif_pos more]
  dsimp only
  rw [appendFrom_eq, startIndex_eq, splice_eq_spliced]
  rfl

theorem linesFor_some (more : src.eof = false)
    (isSpliced : spliced (joined ++ src.physicalLine) = some front) :
    src.linesFor joined = src.afterLine.linesFor front := by
  rw [Source.linesFor, readLine_unfold more, isSpliced]
  rfl

theorem linesFor_none (more : src.eof = false)
    (unspliced : spliced (joined ++ src.physicalLine) = none) :
    src.linesFor joined = if joined ++ src.physicalLine = [] ∧ src.afterLine.eof = true then []
      else (src.afterLine.lineno, joined ++ src.physicalLine) :: src.afterLine.readLines := by
  rw [Source.linesFor, readLine_unfold more, unspliced]

theorem work_afterLine (more : src.eof = false) : src.afterLine.work < src.work :=
  Source.work_readNewline more

theorem lineno_getChar : src.getChar.2.lineno = src.lineno := by
  obtain ⟨device, lineno, atStart, reachedEof⟩ := src
  cases device with
  | file unread => match unread with
    | none => rfl
    | some [] => rfl
    | some (_ :: _) => rfl
  | string value index =>
    simp only [Source.getChar]
    split <;> rfl

theorem lineno_endLine (newline : List UInt8) : (src.endLine newline).lineno = src.lineno := by
  rw [Source.endLine]
  split
  · split <;> rfl
  · rfl

theorem lineno_readNewline (newline : List UInt8) :
    (src.readNewline newline).2.lineno = src.lineno := by
  induction newline, src using Source.readNewline.induct with
  | case1 newline src read ended =>
    rw [Source.readNewline, dif_pos ended]
    exact (lineno_endLine newline).trans lineno_getChar
  | case2 newline src read more ends =>
    rw [Source.readNewline, dif_neg more, if_pos ends]
    exact lineno_getChar
  | case3 newline src read more goesOn ih =>
    rw [Source.readNewline, dif_neg more, if_neg goesOn]
    exact ih.trans lineno_getChar

theorem lineno_afterLine : src.afterLine.lineno = src.lineno + 1 :=
  congrArg (· + 1) (lineno_readNewline [])

variable {value : List UInt8} {index : Nat}

theorem eof_string (isString : src.device = .string value index) :
    src.eof = src.unread.isEmpty := by
  rw [Source.eof, Source.unread, isString, Bool.eq_iff_iff, List.isEmpty_iff,
    List.drop_eq_nil_iff, List.length_append, decide_eq_true_iff]
  exact Iff.rfl

/-- What reading a physical line leaves: the lines after it, nothing when there was
nothing to read, or nothing after the NUL of a string. -/
inductive LineRead (src : Source) : Prop where
  | more (rest : linesFrom src.atStart src.unread =
        src.physicalLine :: linesFrom src.afterLine.atStart src.afterLine.unread)
      (goesOn : src.afterLine.eof = false) (plain : src.afterLine.Plain)
  | nothing (none : linesFrom src.atStart src.unread = []) (empty : src.physicalLine = [])
      (ended : src.afterLine.eof = true)
  | nul (last : linesFrom src.atStart src.unread = [src.physicalLine]) (text : List UInt8)
      (ends : src.physicalLine = text ++ [0]) (ended : src.afterLine.eof = true)

variable {other : Source}

/-- What a source may read depends on its device only. -/
theorem unread_congr (same : src.device = other.device) : src.unread = other.unread := by
  rw [Source.unread, Source.unread, same]

theorem plain_congr (same : src.device = other.device) (plain : src.Plain) : other.Plain := by
  intro value index isString
  exact plain value index (same.trans isString)

theorem replaceTrigraphs_concat (line : List UInt8) :
    replaceTrigraphs (line ++ [0]) = replaceTrigraphs line ++ [0] := by
  induction line using replaceTrigraphs.induct with
  | case1 first second third rest replacement isTrigraph ih =>
    simp [replaceTrigraphs, isTrigraph, ih]
  | case2 first second third rest plain ih =>
    simp only [List.cons_append] at ih
    simp [replaceTrigraphs, plain, ih]
  | case3 line short =>
    rcases line with _ | ⟨first, _ | ⟨second, _ | ⟨third, rest⟩⟩⟩
    · rfl
    · rfl
    · have plain : trigraphOf first second 0 = none := by
        rw [trigraphOf]
        split <;> rfl
      change replaceTrigraphs [first, second, 0] = _
      rw [replaceTrigraphs, plain]
      rfl
    · exact absurd rfl (short first second third rest)

theorem dropMark_concat (line : List UInt8) : dropMark (line ++ [0]) = dropMark line ++ [0] := by
  match line with
  | [] => rfl
  | [_] => simp [dropMark]
  | [_, _] => simp [dropMark]
  | first :: second :: third :: rest =>
    simp only [dropMark, List.cons_append, List.isPrefixOf_cons_cons, List.isPrefixOf_nil_left]
    split <;> rfl

/-- A string does not end at a newline, as its NUL comes last. -/
theorem text_ne_nil_of_string {line text : List UInt8}
    (next : (value ++ [0]).drop index = line ++ byteOf '\n' :: text) : text ≠ [] := by
  intro empty
  have bound : index ≤ value.length := by
    have length := congrArg List.length next
    rw [List.length_drop, List.length_append, List.length_append, List.length_singleton,
      List.length_cons] at length
    omega
  have last := congrArg List.getLast? next
  rw [List.drop_append_of_le_length bound, empty, List.getLast?_concat,
    List.getLast?_concat] at last
  exact absurd last (by decide)

theorem eof_skip (more : src.eof = false) {line text : List UInt8}
    (next : src.unread = line ++ byteOf '\n' :: text) :
    (src.skip (line.length + 1)).eof = false := by
  obtain ⟨device, lineno, atStart, reachedEof⟩ := src
  cases device with
  | file unread =>
    cases unread with
    | none => cases more
    | some unread => exact more
  | string value index =>
    rw [eof_string rfl, unread_skip, next, List.isEmpty_eq_false_iff]
    simpa using text_ne_nil_of_string next

/-- A physical line that a newline ends leaves the rest of the text. -/
theorem lineRead_line (plain : src.Plain) (more : src.eof = false) {line text : List UInt8}
    (unbroken : byteOf '\n' ∉ line) (next : src.unread = line ++ byteOf '\n' :: text) :
    LineRead src := by
  have read : src.readNewline [] = ([] ++ line, src.skip (line.length + 1)) :=
    readNewline_line plain unbroken next
  have after : src.afterLine.device = (src.skip (line.length + 1)).device := by
    rw [Source.afterLine, read]
  have left : (src.skip (line.length + 1)).unread = text := by
    rw [unread_skip, next]
    simp
  apply LineRead.more
  · rw [unread_congr after, left, linesFrom_eq (by rw [next, physicalLines_line unbroken]),
      Source.physicalLine, read]
    rfl
  · have same : src.afterLine.eof = (src.skip (line.length + 1)).eof := by
      rw [Source.afterLine, read]
      rfl
    rw [same]
    exact eof_skip more next
  · exact plain_congr after.symm (plain_skip plain _)

/-- The last physical line of a file leaves nothing but its end. -/
theorem lineRead_file (more : src.eof = false) {unread : List UInt8}
    (unbroken : byteOf '\n' ∉ unread) (isFile : src.device = .file (some unread)) :
    LineRead src := by
  have left : src.unread = unread := by rw [Source.unread, isFile]
  have plain : src.Plain := fun _ _ isString => by rw [isFile] at isString; cases isString
  have skipped : (src.skip unread.length).getChar.2 =
      { src with device := .file (some []), reachedEof := true } := by
    rw [Source.skip, isFile]
    simp [Source.getChar]
  have read : src.readNewline [] = ([] ++ unread,
      (src.skip unread.length).getChar.2.endLine ([] ++ unread)) :=
    readNewline_end plain unbroken left
  rw [skipped] at read
  cases unread with
  | nil =>
    apply LineRead.nothing
    · rw [linesFrom, left]
      cases src.atStart <;> rfl
    · rw [Source.physicalLine, read]
      cases src.atStart <;> rfl
    · rw [Source.afterLine, read]
      rfl
  | cons byte rest =>
    have after : src.afterLine.device = .file (some []) := by
      rw [Source.afterLine, read]
      rfl
    have goesOn : src.afterLine.eof = false := by
      rw [Source.afterLine, read]
      rfl
    apply LineRead.more
    · have done : src.afterLine.unread = [] := by rw [Source.unread, after]
      have lines := physicalLines_unended unbroken (by simp)
      rw [linesFrom_eq (by rw [left, lines]), done, Source.physicalLine, read]
      rfl
    · exact goesOn
    · exact fun _ _ isString => by rw [after] at isString; cases isString

/-- The last physical line of a string ends with its NUL. -/
theorem lineRead_string (plain : src.Plain) (more : src.eof = false)
    (unbroken : byteOf '\n' ∉ src.unread) (isString : src.device = .string value index) :
    LineRead src := by
  have inside : index ≤ value.length := by
    simpa [Source.eof, isString] using more
  have left : src.unread = value.drop index ++ [0] := by
    rw [Source.unread, isString]
    exact List.drop_append_of_le_length inside
  rw [left] at unbroken
  have read : src.readNewline [] = ([] ++ (value.drop index ++ [0]),
      (src.skip (value.drop index ++ [0]).length).getChar.2.endLine
        ([] ++ (value.drop index ++ [0]))) :=
    readNewline_end plain unbroken left
  have skipped : (src.skip (value.drop index ++ [0]).length).getChar.2 =
      src.skip (value.drop index ++ [0]).length := by
    rw [Source.skip, isString]
    have past : value.length < index + (value.drop index ++ [0]).length := by
      rw [List.length_append, List.length_drop, List.length_singleton]
      omega
    simp only [Source.getChar, if_pos past]
  have stays : (src.skip (value.drop index ++ [0]).length).endLine (value.drop index ++ [0]) =
      src.skip (value.drop index ++ [0]).length := by
    rw [Source.skip, isString]
    rfl
  rw [skipped, List.nil_append, stays] at read
  have lines := physicalLines_unended unbroken (by simp)
  have ends : src.physicalLine = replaceTrigraphs
      (if src.atStart then dropMark (value.drop index) else value.drop index) ++ [0] := by
    rw [Source.physicalLine, read, ← replaceTrigraphs_concat]
    cases src.atStart with
    | false => rfl
    | true => exact congrArg replaceTrigraphs (dropMark_concat _)
  refine LineRead.nul ?_ _ ends ?_
  · rw [linesFrom_eq (by rw [left, lines]), Source.physicalLine, read]
    rfl
  · have after : src.afterLine.device =
        .string value (index + (value.drop index ++ [0]).length) := by
      rw [Source.afterLine, read, Source.skip, isString]
    rw [Source.eof, after, decide_eq_true_iff, List.length_append, List.length_drop,
      List.length_singleton]
    omega

theorem lineRead (plain : src.Plain) (more : src.eof = false) : LineRead src := by
  by_cases broken : byteOf '\n' ∈ src.unread
  · obtain ⟨line, text, next, unbroken⟩ := List.eq_append_cons_of_mem broken
    exact lineRead_line plain more unbroken next
  · cases device : src.device with
    | file unread =>
      cases unread with
      | none => simp [Source.eof, device] at more
      | some unread =>
        have same : src.unread = unread := by rw [Source.unread, device]
        exact lineRead_file more (same ▸ broken) device
    | string value index => exact lineRead_string plain more broken device

/-- The lines that are read from a source are those of the text that is left, after what
has been joined. -/
theorem linesFor_eq (plain : src.Plain) (more : src.eof = false)
    (covered : uncovers joined (linesFrom src.atStart src.unread) = false) :
    src.linesFor joined =
      linesAfter (src.lineno + 1) joined (linesFrom src.atStart src.unread) := by
  induction work : src.work using Nat.strongRecOn generalizing src joined with
  | ind work ih =>
    subst work
    cases lineRead plain more with
    | more rest goesOn plain =>
      rw [rest] at covered ⊢
      have decides := spliced_append_of_not_uncovers covered
      rw [uncovers, Bool.or_eq_false_iff] at covered
      have later := covered.2
      have step {joined : List UInt8}
          (covered : uncovers joined (linesFrom src.afterLine.atStart src.afterLine.unread) =
            false) :
          src.afterLine.linesFor joined = linesAfter (src.lineno + 1 + 1) joined
            (linesFrom src.afterLine.atStart src.afterLine.unread) := by
        rw [← lineno_afterLine]
        exact ih src.afterLine.work (work_afterLine more) plain goesOn covered rfl
      cases isSpliced : spliced src.physicalLine with
      | none =>
        rw [isSpliced] at decides later
        rw [linesFor_none more decides, linesAfter_none isSpliced, ← linesAfter_nothing, if_neg (by
          simp [goesOn]), readLines_eq_linesFor goesOn, lineno_afterLine, step later]
      | some front =>
        rw [isSpliced] at decides later
        rw [linesFor_some more decides, linesAfter_some isSpliced, step later]
    | nothing none empty ended =>
      rw [none, uncovers, Option.isSome_eq_false_iff, Option.isNone_iff_eq_none] at covered
      have unspliced : spliced (joined ++ src.physicalLine) = Option.none := by
        rw [empty, List.append_nil]
        exact covered
      rw [linesFor_none more unspliced, none, linesAfter_nil, readLines_of_eof ended, empty,
        List.append_nil, lineno_afterLine]
      simp [ended]
    | nul last text ends ended =>
      have unspliced : spliced (joined ++ src.physicalLine) = none := by
        rw [ends, ← List.append_assoc]
        exact spliced_concat (by decide) (by decide)
      have alone : spliced src.physicalLine = none := by
        rw [ends]
        exact spliced_concat (by decide) (by decide)
      have nonempty : ¬(joined ++ src.physicalLine = [] ∧ src.afterLine.eof = true) := by
        rw [ends]
        simp
      rw [linesFor_none more unspliced, if_neg nonempty, last, linesAfter_none alone,
        readLines_of_eof ended, lineno_afterLine]
      rfl

end ReadingLines

/-! ## Files and strings -/

section Devices

variable {bytes joined : List UInt8} {number : Nat}

theorem readLines_fromFile (covered : uncovers [] (translatedLines bytes) = false) :
    (Source.fromFile bytes).readLines = logicalLines bytes := by
  have more : (Source.fromFile bytes).eof = false := rfl
  have plain : (Source.fromFile bytes).Plain := fun _ _ isString => by cases isString
  rw [readLines_eq_linesFor more, linesFor_eq plain more (by rwa [← linesFrom_start] at covered)]
  exact linesAfter_nothing.trans (congrArg (fun lines => numbered (joinLines spliced 1 lines))
    linesFrom_start)

theorem readLines_fromString (plain : 0xff ∉ bytes)
    (covered : uncovers [] (translatedLines (bytes ++ [0])) = false) :
    (Source.fromString bytes).readLines = logicalLines (bytes ++ [0]) := by
  have more : (Source.fromString bytes).eof = false := by
    rfl
  have plain : (Source.fromString bytes).Plain := by
    intro value index isString
    cases isString
    exact plain
  rw [readLines_eq_linesFor more, linesFor_eq plain more (by rwa [← linesFrom_start] at covered)]
  exact linesAfter_nothing.trans (congrArg (fun lines => numbered (joinLines spliced 1 lines))
    linesFrom_start)

/-- The lines of a text with a NUL behind it: the NUL is on a line of its own, or behind
the last line if no newline ends it. -/
inductive NulAdded (unended : Bool) : List (List UInt8) → List (List UInt8) → Prop where
  | alone : NulAdded unended [] [[0]]
  | behind (last : List UInt8) (isUnended : unended = true) :
      NulAdded unended [last] [last ++ [0]]
  | cons (line : List UInt8) {lines others : List (List UInt8)}
      (added : NulAdded unended lines others) : NulAdded unended (line :: lines) (line :: others)

variable {unended : Bool} {lines others : List (List UInt8)}

theorem physicalLines_ne_nil (byte : UInt8) (bytes : List UInt8) :
    physicalLines (byte :: bytes) ≠ [] := by
  by_cases ends : byte = byteOf '\n'
  · rw [physicalLines, if_pos ends]
    exact List.cons_ne_nil _ _
  · rw [physicalLines_cons ends]
    exact List.cons_ne_nil _ _

theorem nulAdded_physicalLines (bytes : List UInt8) :
    NulAdded (bytes.getLast? != some (byteOf '\n')) (physicalLines bytes)
      (physicalLines (bytes ++ [0])) := by
  induction bytes with
  | nil => exact .alone
  | cons byte bytes ih =>
    by_cases ends : byte = byteOf '\n'
    · rw [List.cons_append, physicalLines, if_pos ends, physicalLines, if_pos ends]
      cases bytes with
      | nil => exact .cons [] .alone
      | cons second bytes => exact .cons [] ih
    · rw [List.cons_append, physicalLines_cons ends, physicalLines_cons ends]
      cases bytes with
      | nil => exact .behind [byte] (by simpa using ends)
      | cons second bytes =>
        have nonempty := physicalLines_ne_nil second bytes
        generalize physicalLines (second :: bytes) = lines at ih nonempty ⊢
        generalize physicalLines (second :: bytes ++ [0]) = others at ih ⊢
        cases ih with
        | alone => exact absurd rfl nonempty
        | behind last isUnended => exact .behind (byte :: last) isUnended
        | cons line added => exact .cons (byte :: line) added

theorem nulAdded_map (added : NulAdded unended lines others) :
    NulAdded unended (lines.map replaceTrigraphs) (others.map replaceTrigraphs) := by
  induction added with
  | alone => exact .alone
  | behind last isUnended =>
    rw [List.map_singleton, List.map_singleton, replaceTrigraphs_concat]
    exact .behind _ isUnended
  | cons line added ih => exact .cons _ ih

theorem nulAdded_withoutMark (added : NulAdded unended lines others) :
    NulAdded unended (withoutMark lines) (withoutMark others) := by
  cases added with
  | alone => exact .alone
  | behind last isUnended =>
    rw [withoutMark, withoutMark, dropMark_concat]
    exact .behind _ isUnended
  | cons line added => exact .cons _ added

theorem nulAdded_translatedLines (bytes : List UInt8) :
    NulAdded (bytes.getLast? != some (byteOf '\n')) (translatedLines bytes)
      (translatedLines (bytes ++ [0])) := by
  rw [translatedLines, physicalLines_replaceTrigraphs, translatedLines,
    physicalLines_replaceTrigraphs]
  exact nulAdded_withoutMark (nulAdded_map (nulAdded_physicalLines bytes))

theorem spliced_nul (line : List UInt8) : spliced (line ++ [0]) = none :=
  spliced_concat (by decide) (by decide)

theorem uncovers_nulAdded (added : NulAdded unended lines others)
    (covered : uncovers joined lines = false) : uncovers joined others = false := by
  have dark (joined line : List UInt8) : uncovers joined [line ++ [0]] = false := by
    have nul : List.all [0] isBlank = false := by decide
    rw [uncovers, spliced_nul, List.all_append, nul, Bool.and_false, Bool.false_and, Bool.false_or]
    rfl
  induction added generalizing joined with
  | alone => exact dark joined []
  | behind last isUnended => exact dark joined last
  | cons line added ih =>
    rw [uncovers, Bool.or_eq_false_iff] at covered ⊢
    refine ⟨covered.1, ?_⟩
    cases isSpliced : spliced line with
    | none => exact ih (by simpa only [isSpliced] using covered.2)
    | some front => exact ih (by simpa only [isSpliced] using covered.2)

theorem sameButNul_cons {line : Nat × List UInt8} {lines others : List (Nat × List UInt8)}
    (same : SameButNul lines others) : SameButNul (line :: lines) (line :: others) := by
  rcases same with rfl | ⟨front, number, last, rfl, kept⟩
  · exact .inl rfl
  · refine .inr ⟨line :: front, number, last, rfl, ?_⟩
    rcases kept with rfl | ⟨empty, rfl⟩
    · exact .inl rfl
    · exact .inr ⟨empty, rfl⟩

theorem sameButNul_nulAdded (added : NulAdded unended lines others)
    (unspliced : unended = true → ∀ last ∈ lines.getLast?, spliced last = none) :
    SameButNul (linesAfter number joined lines) (linesAfter number joined others) := by
  induction added generalizing number joined with
  | alone =>
    have unspliced : spliced [0] = none := spliced_nul []
    refine .inr ⟨[], number, joined, rfl, ?_⟩
    cases joined with
    | nil => exact .inr ⟨rfl, rfl⟩
    | cons byte joined => exact .inl rfl
  | behind last isUnended =>
    rw [linesAfter_none (unspliced isUnended last rfl), linesAfter_none (spliced_nul last),
      ← List.append_assoc]
    exact .inr ⟨[], number, joined ++ last, rfl, .inl rfl⟩
  | @cons line lines others added ih =>
    have later : unended = true → ∀ last ∈ lines.getLast?, spliced last = none := by
      intro isUnended last isLast
      cases lines with
      | nil => cases isLast
      | cons head tail => exact unspliced isUnended last (by rwa [List.getLast?_cons_cons])
    cases isSpliced : spliced line with
    | none =>
      rw [linesAfter_none isSpliced, linesAfter_none isSpliced, ← linesAfter_nothing,
        ← linesAfter_nothing]
      exact sameButNul_cons (ih later)
    | some front =>
      rw [linesAfter_some isSpliced, linesAfter_some isSpliced]
      exact ih later

theorem sameButNul_logicalLines (ends : endsInSplice bytes = false) :
    SameButNul (logicalLines bytes) (logicalLines (bytes ++ [0])) := by
  have same : SameButNul (linesAfter 1 [] (translatedLines bytes))
      (linesAfter 1 [] (translatedLines (bytes ++ [0]))) := by
    apply sameButNul_nulAdded (nulAdded_translatedLines bytes)
    intro isUnended last isLast
    rw [endsInSplice, isUnended, Bool.true_and, isLast] at ends
    simpa using ends
  rw [linesAfter_nothing, linesAfter_nothing] at same
  exact same

/-- Reading a source implements translation phases 1 and 2: as long as no splice uncovers
another backslash, a file is read as the logical lines of its text, each with the number
of its last physical line; and up to a NUL at the end, a string is read as the same
lines, if no byte of it is taken for the end and the text does not end in a splice. -/
theorem source_reading (bytes : List UInt8)
    (covered : uncovers [] (translatedLines bytes) = false) :
    (Source.fromFile bytes).readLines = logicalLines bytes ∧
      (0xff ∉ bytes → endsInSplice bytes = false →
        SameButNul (Source.fromFile bytes).readLines (Source.fromString bytes).readLines) := by
  have file := readLines_fromFile covered
  refine ⟨file, ?_⟩
  intro plain ends
  have nulCovered := uncovers_nulAdded (nulAdded_translatedLines bytes) covered
  rw [file, readLines_fromString plain nulCovered]
  exact sameButNul_logicalLines ends

/-- A text with a trigraph at the end of its first line, an empty line, a trigraph that is
split by a splice and no newline at its end. -/
def splicedText : List UInt8 :=
  "a??/\n??=b\n\n?\\\n?=".toList.map byteOf

theorem source_reading_splicedText :
    (Source.fromFile splicedText).readLines = logicalLines splicedText ∧
      SameButNul (Source.fromFile splicedText).readLines
        (Source.fromString splicedText).readLines := by
  have reading := source_reading splicedText (by decide)
  exact ⟨reading.1, reading.2 (by decide) (by decide)⟩

/-- A splice with white space behind the backslash, and the number of the last line. -/
theorem readLines_ne_linesAsWritten :
    ¬∀ bytes, (Source.fromFile bytes).readLines = linesAsWritten bytes := by
  intro always
  have written := always ("a\\ \nb\n".toList.map byteOf)
  rw [readLines_fromFile (by decide)] at written
  exact absurd written (by decide)

end Devices

end DaveCC.Frontend
