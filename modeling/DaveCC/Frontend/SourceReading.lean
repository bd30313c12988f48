import Mathlib.Data.List.Basic
import Mathlib.Algebra.Group.Nat.Defs

/-!
# Source reading

`SourceReadLine` of `source.c`: a physical line is read from a file or from a string,
its trigraphs are replaced, and a line that ends in a backslash is continued by the
next one.
-/

namespace DaveCC.Frontend

/-- The code of a character. -/
def byteOf (ch : Char) : UInt8 :=
  ch.toUInt8

/-- Where the bytes of a source come from: the bytes of a file that are still to be read
(there may be no file), or a string and the index of the next byte. -/
inductive SourceDevice where
  | file (unread : Option (List UInt8))
  | string (value : List UInt8) (index : Nat)
  deriving DecidableEq, Repr

structure Source where
  device : SourceDevice
  lineno : Nat := 0
  atStart : Bool := true
  reachedEof : Bool := false
  deriving DecidableEq, Repr

def eofChar : Int := -1

/-- A byte as the `int` that a plain `char` with its value is converted to. -/
def signedChar (byte : UInt8) : Int :=
  if byte < 128 then byte.toNat else byte.toNat - 256

def charOfInt (ch : Int) : UInt8 :=
  UInt8.ofNat (ch % 256).toNat

namespace Source

/-- `NewSourceFromFile`. -/
def fromFile (bytes : List UInt8) : Source :=
  { device := .file (some bytes) }

/-- `NewSourceFromString`. -/
def fromString (bytes : List UInt8) : Source :=
  { device := .string bytes 0 }

/-- `SourceEof`. -/
def eof (src : Source) : Bool :=
  match src.device with
  | .file none => true
  | .file (some _) => src.reachedEof
  | .string value index => value.length < index

/-- `SourceGetChar`. A string ends with a NUL that can be read. -/
def getChar (src : Source) : Int × Source :=
  match src.device with
  | .file none => (eofChar, src)
  | .file (some []) => (eofChar, { src with reachedEof := true })
  | .file (some (byte :: unread)) => (byte.toNat, { src with device := .file (some unread) })
  | .string value index =>
    if value.length < index then (eofChar, src)
    else (signedChar (value.getD index 0), { src with device := .string value (index + 1) })

/-- The number of bytes that can still be read. -/
def remaining (src : Source) : Nat :=
  match src.device with
  | .file none => 0
  | .file (some unread) => unread.length
  | .string value index => value.length + 1 - index

theorem remaining_getChar {src : Source} (more : src.getChar.1 ≠ eofChar) :
    src.getChar.2.remaining < src.remaining := by
  obtain ⟨device, lineno, atStart, reachedEof⟩ := src
  cases device with
  | file unread =>
    match unread with
    | none => exact absurd rfl more
    | some [] => exact absurd rfl more
    | some (byte :: unread) => exact Nat.lt_succ_self _
  | string value index =>
    simp only [getChar] at more ⊢
    split at more
    · exact absurd rfl more
    · next inside =>
        rw [if_neg inside]
        simp only [remaining]
        omega

/-- The end of the source has been found behind a line: the end of a file is not
reported with an unterminated last line. -/
def endLine (newline : List UInt8) (src : Source) : Source :=
  match src.device with
  | .file _ => if 0 < newline.length then { src with reachedEof := false } else src
  | .string _ _ => src

/-- The loop that reads a physical line. -/
def readNewline (newline : List UInt8) (src : Source) : List UInt8 × Source :=
  let read := src.getChar
  if _more : read.1 = eofChar then (newline, endLine newline read.2)
  else if read.1 = (byteOf '\n').toNat then (newline, read.2)
  else readNewline (newline ++ [charOfInt read.1]) read.2
termination_by src.remaining
decreasing_by exact remaining_getChar _more

end Source

/-- The third characters of the trigraphs, and what each stands for. -/
def trigraphs : List (UInt8 × UInt8) :=
  [(byteOf '=', byteOf '#'), (byteOf '/', byteOf '\\'), (0x27, byteOf '^'),
    (byteOf '(', byteOf '['), (byteOf ')', byteOf ']'), (byteOf '!', byteOf '|'),
    (byteOf '<', 0x7b), (byteOf '>', 0x7d), (byteOf '-', byteOf '~')]

/-- A `size_t` from which a small number is subtracted. -/
def sizeSub (size amount : Nat) : Nat :=
  if amount ≤ size then size - amount else 2 ^ 64 + size - amount

/-- The loop that appends a physical line from an index on, with its trigraphs
replaced. -/
def appendFrom (newline : List UInt8) (i : Nat) (line : List UInt8) : List UInt8 :=
  if _more : i < newline.length then
    let c := newline.getD i 0
    if c = byteOf '?' ∧ i < sizeSub newline.length 2 ∧ newline.getD (i + 1) 0 = byteOf '?' then
      match trigraphs.lookup (newline.getD (i + 2) 0) with
      | some c => appendFrom newline (i + 3) (line ++ [c])
      | none => appendFrom newline (i + 1) (line ++ [c])
    else appendFrom newline (i + 1) (line ++ [c])
  else line
termination_by newline.length - i

/-- White space within a line. -/
def isBlank (ch : UInt8) : Bool :=
  ch = byteOf ' ' || ch = byteOf '\t' || ch = 0x0b || ch = 0x0c || ch = byteOf '\r'

/-- The length of a line without the white space at its end, from a length on. -/
def spliceIndex (line : List UInt8) : Nat → Nat
  | 0 => 0
  | splice + 1 =>
    if isBlank (line.getD splice 0) then spliceIndex line splice else splice + 1

/-- A line without its backslash, when it ends in one. -/
def splice (line : List UInt8) : Option (List UInt8) :=
  if 0 < line.length then
    let splice := spliceIndex line line.length
    if 0 < splice ∧ line.getD (splice - 1) 0 = byteOf '\\' then some (line.take (splice - 1))
    else none
  else none

namespace Source

/-- The index of the first byte of a physical line after a byte order mark. -/
def startIndex (atStart : Bool) (newline : List UInt8) : Nat :=
  if atStart = true ∧ 3 ≤ newline.length ∧ newline.getD 0 0 = 0xef ∧ newline.getD 1 0 = 0xbb ∧
      newline.getD 2 0 = 0xbf then 3
  else 0

/-- What is left to read, with the end of a file. -/
def work (src : Source) : Nat :=
  match src.device with
  | .file none => 0
  | .file (some unread) => unread.length + if src.reachedEof then 0 else 1
  | .string value index => value.length + 1 - index

/-- A file whose end has not been reached, or a string. -/
def Reads (src : Source) : Prop :=
  ∀ unread, src.device = .file unread → src.reachedEof = false

variable {src : Source}

theorem reads_of_not_eof (more : src.eof = false) : src.Reads := by
  obtain ⟨device, lineno, atStart, reachedEof⟩ := src
  intro unread isFile
  cases isFile
  cases unread with
  | none => cases more
  | some unread => exact more

theorem reads_getChar (reads : src.Reads) (more : src.getChar.1 ≠ eofChar) :
    src.getChar.2.Reads := by
  obtain ⟨device, lineno, atStart, reachedEof⟩ := src
  cases device with
  | file unread =>
    match unread with
    | none => exact absurd rfl more
    | some [] => exact absurd rfl more
    | some (byte :: unread) =>
      intro _ _
      exact reads _ rfl
  | string value index =>
    intro unread isFile
    simp only [getChar] at isFile
    split at isFile <;> cases isFile

theorem work_getChar (more : src.getChar.1 ≠ eofChar) : src.getChar.2.work < src.work := by
  obtain ⟨device, lineno, atStart, reachedEof⟩ := src
  cases device with
  | file unread =>
    match unread with
    | none => exact absurd rfl more
    | some [] => exact absurd rfl more
    | some (byte :: unread) =>
      exact Nat.add_lt_add_right (Nat.lt_succ_self unread.length) _
  | string value index =>
    simp only [getChar] at more ⊢
    split at more
    · exact absurd rfl more
    · next inside =>
        rw [if_neg inside]
        simp only [work]
        omega

variable {newline : List UInt8}

/-- At its end, a source that was still to be read has been read when nothing precedes
the end on the line. -/
theorem work_at_end (reads : src.Reads) (ended : src.getChar.1 = eofChar) :
    (src.readNewline newline).2.work ≤ src.work ∧
      (newline = [] → src.eof = false → (src.readNewline newline).2.work < src.work) := by
  obtain ⟨device, lineno, atStart, reachedEof⟩ := src
  rw [readNewline, dif_pos ended]
  cases device with
  | file unread =>
    match unread with
    | none =>
      refine ⟨?_, fun _ more => by cases more⟩
      cases newline <;> exact Nat.le_refl _
    | some [] =>
      have unreached : reachedEof = false := reads _ rfl
      subst unreached
      cases newline with
      | nil => exact ⟨Nat.zero_le _, fun _ _ => Nat.zero_lt_one⟩
      | cons byte newline => exact ⟨Nat.le_refl _, fun empty => by cases empty⟩
    | some (byte :: unread) =>
      have ended : (byte.toNat : Int) = -1 := ended
      omega
  | string value index =>
    simp only [getChar] at ended ⊢
    split at ended
    · next past =>
        rw [if_pos past]
        refine ⟨Nat.le_refl _, fun _ more => ?_⟩
        simp [eof, past] at more
    · next inside =>
        rw [if_neg inside]
        simp only [work, endLine]
        exact ⟨by omega, fun _ _ => by omega⟩

theorem work_readNewline_le (reads : src.Reads) : (src.readNewline newline).2.work ≤ src.work := by
  induction newline, src using readNewline.induct with
  | case1 newline src read ended => exact (work_at_end reads ended).1
  | case2 newline src read more ends =>
    rw [readNewline, dif_neg more, if_pos ends]
    exact Nat.le_of_lt (work_getChar more)
  | case3 newline src read more goesOn ih =>
    rw [readNewline, dif_neg more, if_neg goesOn]
    exact Nat.le_trans (ih (reads_getChar reads more)) (Nat.le_of_lt (work_getChar more))

theorem work_readNewline (more : src.eof = false) : (src.readNewline []).2.work < src.work := by
  have reads := reads_of_not_eof more
  by_cases ended : src.getChar.1 = eofChar
  · exact (work_at_end reads ended).2 rfl more
  · rw [readNewline, dif_neg ended]
    split
    · exact work_getChar ended
    · exact Nat.lt_of_le_of_lt (work_readNewline_le (reads_getChar reads ended))
        (work_getChar ended)

/-- `SourceReadLine`: a line is appended to `line`. -/
def readLine (line : List UInt8) (src : Source) : List UInt8 × Source :=
  if _more : src.eof = false then
    let read := src.readNewline []
    let next := { read.2 with lineno := read.2.lineno + 1, atStart := false }
    let line := appendFrom read.1 (startIndex src.atStart read.1) line
    match splice line with
    | some line => readLine line next
    | none => (line, next)
  else (line, src)
termination_by src.work
decreasing_by exact work_readNewline _more

theorem work_readLine_le (line : List UInt8) (src : Source) :
    (src.readLine line).2.work ≤ src.work := by
  induction line, src using readLine.induct with
  | case1 line src more read next appended continued isSplice ih =>
    rw [readLine, dif_pos more]
    simp only [read, next, appended] at isSplice ih
    simp only [isSplice]
    exact Nat.le_trans ih (Nat.le_of_lt (work_readNewline more))
  | case2 line src more read appended noSplice =>
    rw [readLine, dif_pos more]
    simp only [read, appended] at noSplice
    simp only [noSplice]
    exact Nat.le_of_lt (work_readNewline more)
  | case3 line src ended =>
    apply Nat.le_of_eq
    rw [readLine, dif_neg ended]

theorem work_readLine (more : src.eof = false) (line : List UInt8) :
    (src.readLine line).2.work < src.work := by
  rw [readLine, dif_pos more]
  dsimp only
  split
  · exact Nat.lt_of_le_of_lt (work_readLine_le _ _) (work_readNewline more)
  · exact work_readNewline more

/-- The lines read until `SourceEof`, with the number each is recorded with. An empty
line that the end of the source is found with is no line. -/
def readLines (src : Source) : List (Nat × List UInt8) :=
  if _more : src.eof = false then
    let read := src.readLine []
    if read.1 = [] ∧ read.2.eof = true then []
    else (read.2.lineno, read.1) :: readLines read.2
  else []
termination_by src.work
decreasing_by exact work_readLine _more []

end Source

end DaveCC.Frontend
