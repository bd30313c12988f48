import DaveCC.Frontend.LexCheckpoint

/-!
# What reading leaves alone

Reading from a source moves its position, and nothing else of it once its first line has
been read. What a lexer state has besides the members that a checkpoint puts back is
therefore the same before and after a line.
-/

namespace DaveCC.Frontend.Lexing

/-- A source without its position. -/
inductive SourceStorage where
  | file
  | unopened (reachedEof : Bool)
  | string (value : List UInt8) (reachedEof : Bool)
  deriving DecidableEq

def storageOf (source : Source) : SourceStorage :=
  match source.device with
  | .file (some _) => .file
  | .file none => .unopened source.reachedEof
  | .string value _ => .string value source.reachedEof

/-- A file that is not at its end, or no file. -/
def Rewindable (source : Source) : Prop :=
  storageOf source = .file → source.reachedEof = false

section Sources

variable {source other : Source}

theorem rewindable_of_not_eof (more : source.eof = false) : Rewindable source := by
  obtain ⟨device, lineno, atStart, reachedEof⟩ := source
  intro isFile
  cases device with
  | file unread =>
    cases unread with
    | none => cases isFile
    | some unread => exact more
  | string value index => cases isFile

/-- A position put back in a source that has only been read from. -/
theorem seek_eq (storage : storageOf source = storageOf other)
    (started : source.atStart = other.atStart) (rewindable : Rewindable source) :
    { seek (positionOf source) other with lineno := source.lineno } = source := by
  obtain ⟨device, lineno, atStart, reachedEof⟩ := source
  obtain ⟨otherDevice, otherLineno, otherStart, otherEof⟩ := other
  cases started
  cases device with
  | file unread =>
    cases otherDevice with
    | file otherUnread =>
      cases unread <;> cases otherUnread
      · cases storage
        rfl
      · cases storage
      · cases storage
      · cases rewindable rfl
        rfl
    | string value index => cases unread <;> cases storage
  | string value index =>
    cases otherDevice with
    | file otherUnread => cases otherUnread <;> cases storage
    | string otherValue otherIndex =>
      cases storage
      rfl

theorem storageOf_getChar : storageOf source.getChar.2 = storageOf source := by
  obtain ⟨device, lineno, atStart, reachedEof⟩ := source
  cases device with
  | file unread =>
    match unread with
    | none => rfl
    | some [] => rfl
    | some (byte :: unread) => rfl
  | string value index =>
    simp only [Source.getChar]
    split <;> rfl

theorem storageOf_endLine (opened : source.device ≠ .file none) (newline : List UInt8) :
    storageOf (source.endLine newline) = storageOf source := by
  obtain ⟨device, lineno, atStart, reachedEof⟩ := source
  cases device with
  | file unread =>
    cases unread with
    | none => exact absurd rfl opened
    | some unread =>
      simp only [Source.endLine]
      split <;> rfl
  | string value index => rfl

theorem opened_of_storage (storage : storageOf source = storageOf other)
    (opened : other.device ≠ .file none) : source.device ≠ .file none := by
  intro unopened
  obtain ⟨device, lineno, atStart, reachedEof⟩ := other
  rw [storageOf, unopened] at storage
  cases device with
  | file unread =>
    cases unread with
    | none => exact opened rfl
    | some unread => cases storage
  | string value index => cases storage

theorem storageOf_readNewline (newline : List UInt8) (opened : source.device ≠ .file none) :
    storageOf (source.readNewline newline).2 = storageOf source := by
  induction newline, source using Source.readNewline.induct with
  | case1 newline source read ended =>
    rw [Source.readNewline, dif_pos ended]
    exact (storageOf_endLine (opened_of_storage storageOf_getChar opened) newline).trans
      storageOf_getChar
  | case2 newline source read more isNewline =>
    rw [Source.readNewline, dif_neg more, if_pos isNewline]
    exact storageOf_getChar
  | case3 newline source read more inLine ih =>
    rw [Source.readNewline, dif_neg more, if_neg inLine]
    exact (ih (opened_of_storage storageOf_getChar opened)).trans storageOf_getChar

theorem opened_of_not_eof (more : source.eof = false) : source.device ≠ .file none := by
  intro unopened
  rw [Source.eof, unopened] at more
  cases more

theorem storageOf_readLine (line : List UInt8) :
    storageOf (source.readLine line).2 = storageOf source := by
  induction line, source using Source.readLine.induct with
  | case1 line source more read next appended continued isSplice ih =>
    rw [Source.readLine, dif_pos more]
    simp only [read, next, appended] at isSplice ih
    simp only [isSplice]
    exact ih.trans (storageOf_readNewline [] (opened_of_not_eof more))
  | case2 line source more read appended noSplice =>
    rw [Source.readLine, dif_pos more]
    simp only [read, appended] at noSplice
    simp only [noSplice]
    exact storageOf_readNewline [] (opened_of_not_eof more)
  | case3 line source ended => rw [Source.readLine, dif_neg ended]

theorem atStart_readLine (line : List UInt8) (started : source.atStart = false) :
    (source.readLine line).2.atStart = false := by
  induction line, source using Source.readLine.induct with
  | case1 line source more read next appended continued isSplice ih =>
    rw [Source.readLine, dif_pos more]
    simp only [read, next, appended] at isSplice ih
    simp only [isSplice]
    exact ih trivial
  | case2 line source more read appended noSplice =>
    rw [Source.readLine, dif_pos more]
    simp only [read, appended] at noSplice
    simp only [noSplice]
  | case3 line source ended =>
    rw [Source.readLine, dif_neg ended]
    exact started

theorem storageOf_readFurther (lines : Nat) :
    storageOf (readFurther source lines) = storageOf source := by
  induction lines generalizing source with
  | zero => rfl
  | succ lines ih => exact ih.trans (storageOf_readLine [])

theorem atStart_readFurther (lines : Nat) (started : source.atStart = false) :
    (readFurther source lines).atStart = false := by
  induction lines generalizing source with
  | zero => exact started
  | succ lines ih => exact ih (atStart_readLine [] started)

end Sources

/-- What a lexer state has that a checkpoint does not put back; of the current source,
all but its position. -/
structure Surviving (World : Type) where
  source : SourceId
  nextSource : SourceId
  suppressPreprocessing : Bool
  world : World
  here : Option (SourceStorage × Bool × Nat × Option SourceId)
  elsewhere : SourceId → Option OpenSource

namespace LexState

variable {World Partial : Type} {around : LexerSurroundings World Partial}
  {state : LexState World Partial}

def surviving (state : LexState World Partial) : Surviving World where
  source := state.source
  nextSource := state.nextSource
  suppressPreprocessing := state.suppressPreprocessing
  world := state.world
  here := state.current.map fun opened =>
    (storageOf opened.reading, opened.reading.atStart, opened.pathIndex, opened.prev)
  elsewhere := fun id => if id = state.source then none else state.sources id

/-- A line of the current source has been read. -/
def Started (state : LexState World Partial) : Prop :=
  ∀ opened, state.current = some opened → opened.reading.atStart = false

theorem surviving_setReading {opened : OpenSource} {reading : Source}
    (isOpen : state.current = some opened)
    (storage : storageOf reading = storageOf opened.reading)
    (started : reading.atStart = opened.reading.atStart) :
    (state.setReading reading).surviving = state.surviving := by
  have current : (state.setReading reading).current = some { opened with reading := reading } := by
    simp only [LexState.current, setReading, if_true]
    exact congrArg (Option.map _) isOpen
  have elsewhere : (state.setReading reading).surviving.elsewhere = state.surviving.elsewhere := by
    funext id
    simp only [surviving, setReading]
    split <;> rfl
  simp only [surviving] at elsewhere ⊢
  simp only [current, isOpen, elsewhere, Option.map_some, storage, started]
  rfl

theorem surviving_readSourceLine (started : state.Started) :
    state.readSourceLine.surviving = state.surviving := by
  cases isOpen : state.current with
  | none => simp only [readSourceLine, isOpen]
  | some opened =>
    simp only [readSourceLine, isOpen]
    exact surviving_setReading isOpen (storageOf_readLine _)
      ((atStart_readLine _ (started opened isOpen)).trans (started opened isOpen).symm)

theorem surviving_readLines (started : state.Started) (lines : Nat) :
    (state.readLines lines).surviving = state.surviving := by
  cases isOpen : state.current with
  | none => simp only [readLines, isOpen]
  | some opened =>
    simp only [readLines, isOpen]
    exact surviving_setReading isOpen (storageOf_readFurther _)
      ((atStart_readFurther _ (started opened isOpen)).trans (started opened isOpen).symm)

/-- Being past the first line is seen in what survives. -/
theorem started_iff : state.Started ↔ ∀ here, state.surviving.here = some here → here.2.1 = false := by
  simp only [Started, surviving]
  cases state.current with
  | none => simp
  | some opened => simp

theorem started_of_surviving {other : LexState World Partial}
    (same : other.surviving = state.surviving) (started : state.Started) : other.Started := by
  rw [started_iff, same]
  exact started_iff.mp started

end LexState

end DaveCC.Frontend.Lexing
