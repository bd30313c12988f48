import DaveCC.Frontend.LexerState

/-!
# Checkpoints of the lexer

`LexCheckpointSave`, `LexCheckpointRestore` and `LexCheckpointDestruct` of `lex.c`. The
line of a checkpoint is shared: its text is kept once the lexer gives the line up, and
counted references decide when it is freed.
-/

namespace DaveCC.Frontend.Lexing

/-- `LexSavedLine`, with its text once it has one. -/
structure SavedLine where
  refs : Nat
  text : Option Line
  deriving DecidableEq

/-- The position in a source, as `fgetpos` or the index of a string gives it. -/
inductive SourcePosition where
  | file (unread : List UInt8)
  | string (index : Nat)
  | unopened
  deriving DecidableEq

def positionOf (source : Source) : SourcePosition :=
  match source.device with
  | .file (some unread) => .file unread
  | .file none => .unopened
  | .string _ index => .string index

/-- The position of a source is put back; a file is then not at its end. -/
def seek (position : SourcePosition) (source : Source) : Source :=
  match position, source.device with
  | .file unread, .file (some _) =>
    { source with device := .file (some unread), reachedEof := false }
  | .string index, .string value _ => { source with device := .string value index }
  | _, _ => source

structure LexCheckpoint where
  source : SourceId
  position : SourcePosition
  lineno : Nat
  pathIndex : Nat
  savedLine : Option Nat
  line : Line
  pos : Nat
  fields : LexFields
  ifStack : List IfEntry
  isCompiledIn : Bool

/-- A checkpoint that has not been discarded. What the state was when it was saved is
kept with it to compare with. -/
structure Outstanding (World Partial : Type) where
  checkpoint : LexCheckpoint
  state : LexState World Partial

/-- The lexer with its saved lines and checkpoints, the newest checkpoint first. -/
structure Session (World Partial : Type) where
  lex : LexState World Partial
  savedLine : Option Nat := none
  savedLines : Nat → Option SavedLine := fun _ => none
  nextSavedLine : Nat := 0
  checkpoints : List (Outstanding World Partial) := []

def releaseSavedLine (id : Option Nat) (lines : Nat → Option SavedLine) :
    Nat → Option SavedLine :=
  fun other =>
    if id = some other then
      (lines other).bind fun saved =>
        if saved.refs - 1 = 0 then none else some { saved with refs := saved.refs - 1 }
    else lines other

/-- `saved->refs++`. -/
def retainSavedLine (id : Nat) (lines : Nat → Option SavedLine) : Nat → Option SavedLine :=
  fun other =>
    if id = other then (lines other).map fun saved => { saved with refs := saved.refs + 1 }
    else lines other

/-- The text of a line moves into what its checkpoints share, when there are any and it
has none. -/
def keepText (id : Nat) (line : Line) (lines : Nat → Option SavedLine) :
    Nat → Option SavedLine :=
  fun other =>
    if id = other then
      (lines other).map fun saved =>
        if saved.text.isNone ∧ 1 < saved.refs then { saved with text := some line } else saved
    else lines other

namespace Session

variable {World Partial : Type}

/-- `LexWillChangeLine`. -/
def willChangeLine (session : Session World Partial) : Session World Partial :=
  match session.savedLine with
  | none => session
  | some id =>
    { session with
      savedLine := none
      savedLines :=
        releaseSavedLine (some id) (keepText id session.lex.line session.savedLines) }

/-- The line that the current line is saved as: a new one unless it has been saved
before, or none when it cannot be allocated. -/
def shareLine (allocated : Bool) (session : Session World Partial) : Session World Partial :=
  match session.savedLine, allocated with
  | none, true =>
    { session with
      savedLine := some session.nextSavedLine
      nextSavedLine := session.nextSavedLine + 1
      savedLines := fun id =>
        if id = session.nextSavedLine then some { refs := 1, text := none }
        else session.savedLines id }
  | _, _ => session

/-- What a checkpoint copies from a state. -/
def takeCheckpoint (state : LexState World Partial) (opened : OpenSource)
    (savedLine : Option Nat) : LexCheckpoint where
  source := state.source
  position := positionOf opened.reading
  lineno := opened.reading.lineno
  pathIndex := opened.pathIndex
  savedLine := savedLine
  line := if savedLine.isSome then [] else state.line
  pos := state.pos
  fields := state.fields
  ifStack := state.ifStack
  isCompiledIn := state.isCompiledIn

/-- A checkpoint of the current line is added. -/
def hold (outstanding : Outstanding World Partial) (session : Session World Partial) :
    Session World Partial :=
  { session with
    savedLines :=
      match session.savedLine with
      | none => session.savedLines
      | some id => retainSavedLine id session.savedLines
    checkpoints := outstanding :: session.checkpoints }

/-- `LexCheckpointSave`. -/
def save (allocated : Bool) (session : Session World Partial) : Option (Session World Partial) :=
  session.lex.current.map fun opened =>
    let shared := session.shareLine allocated
    shared.hold {
      checkpoint := takeCheckpoint session.lex opened shared.savedLine
      state := session.lex }

/-- The source of a checkpoint becomes the current one, where the checkpoint was
saved. -/
def restoreSource (checkpoint : LexCheckpoint) (lineIsCurrent : Bool)
    (lex : LexState World Partial) : Option (LexState World Partial) := do
  let opened ← lex.sources checkpoint.source
  let reading := seek checkpoint.position opened.reading
  let restored : OpenSource := { opened with
    reading := { reading with lineno := checkpoint.lineno }
    pathIndex := checkpoint.pathIndex }
  some { lex with
    source := checkpoint.source
    sources := fun id =>
      if id = checkpoint.source ∧ lineIsCurrent = false then some restored else lex.sources id }

/-- The line of a checkpoint becomes the current one. The lexer has given up a shared
line that is not current, so that it has a text. -/
def restoreLine (checkpoint : LexCheckpoint) (session : Session World Partial) :
    Option (Session World Partial) :=
  match checkpoint.savedLine with
  | none =>
    let changed := session.willChangeLine
    some { changed with lex := { changed.lex with line := checkpoint.line } }
  | some id =>
    if session.savedLine = some id then some session
    else do
      let changed := session.willChangeLine
      let saved ← changed.savedLines id
      let text ← saved.text
      some { changed with
        lex := { changed.lex with line := text }
        savedLine := some id
        savedLines := retainSavedLine id changed.savedLines }

/-- `LexCheckpointRestore`. -/
def restore (checkpoint : LexCheckpoint) (session : Session World Partial) :
    Option (Session World Partial) := do
  let lineIsCurrent := checkpoint.savedLine.isSome && checkpoint.savedLine == session.savedLine &&
    checkpoint.source == session.lex.source
  let lex ← restoreSource checkpoint lineIsCurrent session.lex
  let lined ← restoreLine checkpoint { session with lex := lex }
  some { lined with
    lex := { lined.lex with
      pos := checkpoint.pos
      fields := checkpoint.fields
      ifStack := checkpoint.ifStack
      isCompiledIn := checkpoint.isCompiledIn } }

/-- `LexCheckpointDestruct`. -/
def discard (index : Nat) (session : Session World Partial) : Option (Session World Partial) := do
  let outstanding ← session.checkpoints[index]?
  some { session with
    savedLines := releaseSavedLine outstanding.checkpoint.savedLine session.savedLines
    checkpoints := session.checkpoints.eraseIdx index }

/-- The lexer goes on. -/
def read (around : LexerSurroundings World Partial) (event : ReadEvent)
    (session : Session World Partial) : Option (Session World Partial) := do
  let next ← session.lex.read around event
  let changed :=
    if event = .step ∧ session.lex.replacesLine = true then session.willChangeLine else session
  some { changed with lex := next }

end Session

/-- What happens to a lexer. Checkpoints are named by their place among the outstanding
ones. -/
inductive Event where
  | read (event : ReadEvent)
  | save (allocated : Bool)
  | restore (index : Nat)
  | discard (index : Nat)
  deriving DecidableEq, Repr

namespace Session

variable {World Partial : Type} (around : LexerSurroundings World Partial)

/-- Checkpoints are saved and restored between tokens. -/
def perform (event : Event) (session : Session World Partial) : Option (Session World Partial) :=
  match event with
  | .read event => session.read around event
  | .save allocated => if session.lex.control.isIdle then session.save allocated else none
  | .restore index =>
    if session.lex.control.isIdle then
      session.checkpoints[index]?.bind fun outstanding => session.restore outstanding.checkpoint
    else none
  | .discard index => session.discard index

/-- A number of events one after the other. -/
def performAll : List Event → Session World Partial → Option (Session World Partial)
  | [], session => some session
  | event :: events, session => (session.perform around event).bind (performAll events)

end Session

end DaveCC.Frontend.Lexing
