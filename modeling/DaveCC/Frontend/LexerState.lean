import DaveCC.Frontend.ConditionalDirectives
import DaveCC.Frontend.SourceReading

/-!
# The lexer and its lines

`LexNextToken`, `LexSkipSpacesAndComments` and `LexReadLine` of `lex.c`, as a machine
that takes one step at a time. How a token is collected, and what the preprocessor does
with a line, is given from outside as a function of the whole state.
-/

namespace DaveCC.Frontend.Lexing

abbrev Line := List UInt8

abbrev SourceId := Nat

/-- The tokens that `LexConsumeClosingAngle` splits, and the others by number. -/
inductive Token where
  | eof | bad | greater | greatergreater | greatergreatereq | greatereq | equal
  | other (number : Nat)
  deriving DecidableEq, Repr

inductive LiteralEncoding where
  | none | wide | utf8 | utf16 | utf32
  deriving DecidableEq, Repr

/-- A source location, as `DecodeSourceLocation` takes it apart. -/
structure Location where
  file : Nat
  lineno : Nat
  start : Nat
  length : Nat
  deriving DecidableEq, Repr

/-- `NewSourceLocation`; there is no location when a field does not fit. A token that
ends on another line has a negative length, which runs into the start. -/
def newSourceLocation (file lineno start finish : Nat) : Option Location :=
  let length := BitVec.ofNat 64 finish - BitVec.ofNat 64 start
  let packed := (BitVec.ofNat 64 start <<< 49) ||| (length <<< 36)
  if 0xffff < start ∨ 0xffff < file ∨ (0x1fff : BitVec 64).slt length then none
  else
    some {
      file := file
      lineno := lineno
      start := ((packed >>> 49) &&& 0xffff).toNat
      length := ((packed >>> 36) &&& 0x1fff).toNat }

/-- The members of `Lex` that describe the current token and the modes of the lexer. -/
structure LexFields where
  currentTokenLocation : Option Location := none
  currentToken : Token := .bad
  currentGreatereqIsSplit : Bool := false
  spelling : Line := []
  literalSpelling : Line := []
  number : BitVec 64 := 0
  fnumber : BitVec 64 := 0
  suffix : Line := []
  udSuffix : Line := []
  literalEncoding : LiteralEncoding := .none
  literalIsRaw : Bool := false
  literalHasNumericEscape : Bool := false
  preprocessorMode : Bool := false
  inComment : Bool := false
  assemblerMode : Bool := false
  dollarIsHex : Bool := false
  dollarPrefixed : Bool := false
  replayActive : Bool := false
  replayTokens : Option Nat := none
  replayIndex : Nat := 0
  replayInjectedValue : Option Nat := none
  deriving DecidableEq, Repr

/-- Where `LexReadLine` returns to: the loop over lines or the loop in a line of
`LexSkipSpacesAndComments`, or a block comment after a character. -/
inductive AfterLine where
  | spaces | inLine
  | comment (prev : UInt8)
  deriving DecidableEq, Repr

/-- What the lexer is doing. `Partial` is what has been collected of a token that goes on
on the next line. -/
inductive Control (Partial : Type) where
  | idle
  | skippingSpaces
  | skippingInLine
  | spacesSkipped
  | inBlockComment (prev : UInt8)
  | replacingLine (after : AfterLine)
  | readingLines (after : AfterLine)
  | lineRead (after : AfterLine)
  | startingToken
  | collecting (start lineno : Nat) (part : Option (Partial × Bool))
  | continuingLine (start lineno : Nat) (part : Partial)

def Control.isIdle {Partial : Type} : Control Partial → Bool
  | .idle => true
  | _ => false

/-- A `Source` with its place in the stack of sources. -/
structure OpenSource where
  reading : Source
  pathIndex : Nat
  prev : Option SourceId
  deriving DecidableEq

/-- `Lex` with its sources and its preprocessor. The conditional stack and the flag that
goes with it stand apart from everything else that the preprocessor knows. -/
structure LexState (World Partial : Type) where
  control : Control Partial
  line : Line
  pos : Nat
  fields : LexFields
  source : SourceId
  sources : SourceId → Option OpenSource
  nextSource : SourceId
  suppressPreprocessing : Bool
  ifStack : List IfEntry
  isCompiledIn : Bool
  world : World

/-- What `PreprocessorParseDirective` has done with a line. It may have read further
lines of the source, and it may have opened an included source; then the index that the
search path had is kept with the includer. -/
structure DirectiveResult (World : Type) where
  isDirective : Bool
  producedOutput : Bool := false
  line : Line
  linesRead : Nat := 0
  ifStack : List IfEntry
  isCompiledIn : Bool
  included : Option (Source × Nat) := none
  world : World

/-- What `PreprocessorReplaceMacros` has done with a line. -/
structure MacroResult (World : Type) where
  line : Line
  linesRead : Nat := 0
  world : World

/-- The part of `LexNextToken` behind the spaces: a token has been collected, or a raw
string asks for another line. -/
inductive CollectStep (Partial : Type) where
  | collected (pos : Nat) (fields : LexFields)
  | continueLine (pos : Nat) (fields : LexFields) (part : Partial)

/-- What the lexer calls. -/
structure LexerSurroundings (World Partial : Type) where
  parseDirective : LexState World Partial → DirectiveResult World
  replaceMacros : LexState World Partial → MacroResult World
  /-- `PreprocessorFinishIncludedSource`, and the index of the search path. -/
  finishIncludedSource : LexState World Partial → World
  /-- The index of the file that the current source is recorded under. -/
  fileIndex : LexState World Partial → Nat
  collectToken : LexState World Partial → Option (Partial × Bool) → CollectStep Partial
  /-- `LexNextReplayToken`. -/
  nextReplayToken : LexState World Partial → LexFields

/-- `isspace`. -/
def isSpaceByte (ch : UInt8) : Bool :=
  ch = byteOf ' ' || (0x09 ≤ ch && ch ≤ 0x0d)

/-- A number of calls of `SourceReadLine` whose lines go elsewhere. -/
def readFurther (source : Source) : Nat → Source
  | 0 => source
  | lines + 1 => readFurther (source.readLine []).2 lines

namespace LexState

variable {World Partial : Type} (around : LexerSurroundings World Partial)

/-- The current source, which may have been closed. -/
def current (state : LexState World Partial) : Option OpenSource :=
  state.sources state.source

/-- `SourceEof` of the current source. -/
def sourceEof (state : LexState World Partial) : Bool :=
  state.current.any fun opened => opened.reading.eof

def goTo (control : Control Partial) (state : LexState World Partial) :
    LexState World Partial :=
  { state with control := control }

/-- The current source after it has been read from. -/
def setReading (reading : Source) (state : LexState World Partial) : LexState World Partial :=
  { state with
    sources := fun id =>
      if id = state.source then
        state.current.map fun opened => { opened with reading := reading }
      else state.sources id }

/-- `ReadUTF8SourceLine`: a line is appended to the lexer's line. -/
def readSourceLine (state : LexState World Partial) : LexState World Partial :=
  match state.current with
  | none => state
  | some opened =>
    let read := opened.reading.readLine state.line
    { state.setReading read.2 with line := read.1 }

/-- Further lines of the current source are read. -/
def readLines (lines : Nat) (state : LexState World Partial) : LexState World Partial :=
  match state.current with
  | none => state
  | some opened => state.setReading (readFurther opened.reading lines)

/-- An included source goes on top of the stack of sources. -/
def pushSource (reading : Source) (pathIndex : Nat) (state : LexState World Partial) :
    LexState World Partial :=
  let opened : OpenSource := { reading := reading, pathIndex := 0, prev := some state.source }
  { state with
    source := state.nextSource
    nextSource := state.nextSource + 1
    sources := fun id =>
      if id = state.nextSource then some opened
      else if id = state.source then
        state.current.map fun includer => { includer with pathIndex := pathIndex }
      else state.sources id }

/-- The end of an included source: it is deleted. -/
def popSource (prev : SourceId) (state : LexState World Partial) : LexState World Partial :=
  { state with
    world := around.finishIncludedSource state
    source := prev
    sources := fun id => if id = state.source then none else state.sources id }

/-- A line has been given to `PreprocessorParseDirective`. -/
def parsed (state : LexState World Partial) : LexState World Partial :=
  let result := around.parseDirective state
  let after := { state.readLines result.linesRead with
    line := result.line
    ifStack := result.ifStack
    isCompiledIn := result.isCompiledIn
    world := result.world }
  match result.included with
  | none => after
  | some (reading, pathIndex) => after.pushSource reading pathIndex

/-- A line has been given to `PreprocessorReplaceMacros`. -/
def replaced (state : LexState World Partial) : LexState World Partial :=
  let result := around.replaceMacros state
  { state.readLines result.linesRead with line := result.line, world := result.world }

def endComment (state : LexState World Partial) : LexState World Partial :=
  { state with control := .skippingInLine, fields := { state.fields with inComment := false } }

/-- The end of an iteration of the loop over a block comment. -/
def afterCommentChar (ch : UInt8) (state : LexState World Partial) : LexState World Partial :=
  if state.sourceEof then state.endComment else state.goTo (.inBlockComment ch)

/-- `LexReadLine` returns. -/
def returnTo (after : AfterLine) (state : LexState World Partial) : LexState World Partial :=
  match after with
  | .spaces => state.goTo .skippingSpaces
  | .inLine => state.goTo .skippingInLine
  | .comment _ => state.afterCommentChar (byteOf '\n')

/-- The end of `LexNextToken`, where the location of the token is recorded. -/
def recordLocation (start lineno : Nat) (state : LexState World Partial) :
    LexState World Partial :=
  let pos := if state.fields.currentToken = .bad then state.pos + 1 else state.pos
  { state with
    control := .idle
    pos := pos
    fields := { state.fields with
      currentTokenLocation := newSourceLocation (around.fileIndex state) lineno start pos } }

/-! ## Steps -/

/-- One character of the loop in a line of `LexSkipSpacesAndComments`. -/
def skipInLine (state : LexState World Partial) : LexState World Partial :=
  if state.line.length ≤ state.pos then state.goTo .spacesSkipped
  else
    let ch := state.line.getD state.pos 0
    let next := state.line.getD (state.pos + 1) 0
    if ch = byteOf '/' ∧ next = byteOf '/' then
      if state.fields.assemblerMode then
        { state with control := .spacesSkipped, pos := state.line.length }
      else state.goTo (.replacingLine .inLine)
    else if ch = byteOf '/' ∧ state.pos < state.line.length - 1 ∧ next = byteOf '*' then
      { state with
        control := .inBlockComment 0
        pos := state.pos + 2
        fields := { state.fields with inComment := true } }
    else if isSpaceByte ch then { state with pos := state.pos + 1 }
    else state.goTo .spacesSkipped

/-- One character of a block comment. -/
def skipComment (prev : UInt8) (state : LexState World Partial) : LexState World Partial :=
  if state.pos = state.line.length then state.goTo (.replacingLine (.comment prev))
  else
    let ch := state.line.getD state.pos 0
    let state := { state with pos := state.pos + 1 }
    if prev = byteOf '*' ∧ ch = byteOf '/' then state.endComment
    else state.afterCommentChar ch

/-- The start of `LexReadLine`. -/
def replaceLine (after : AfterLine) (state : LexState World Partial) : LexState World Partial :=
  let state := { state with line := [], pos := 0 }
  if state.suppressPreprocessing then
    if state.sourceEof then state.returnTo after else state.readSourceLine.returnTo after
  else state.goTo (.readingLines after)

/-- One line of the loops of `LexReadLine`. -/
def readNextLine (after : AfterLine) (state : LexState World Partial) :
    LexState World Partial :=
  if state.sourceEof then state.returnTo after
  else
    let result := around.parseDirective state.readSourceLine
    let state := state.readSourceLine.parsed around
    if result.isDirective && result.producedOutput then state.goTo (.lineRead after)
    else if !result.isDirective && state.isCompiledIn then
      (state.replaced around).goTo (.lineRead after)
    else
      { state with
        line := []
        pos := 0
        control := if state.sourceEof then .lineRead after else .readingLines after }

/-- The end of a turn of the outer loop of `LexReadLine`. -/
def finishLine (after : AfterLine) (state : LexState World Partial) : LexState World Partial :=
  match state.sourceEof, state.current.bind OpenSource.prev with
  | true, some prev => (state.popSource around prev).goTo (.readingLines after)
  | _, _ => state.returnTo after

def startToken (state : LexState World Partial) : LexState World Partial :=
  let lineno := (state.current.map fun opened => opened.reading.lineno).getD 0
  let fields := { state.fields with currentToken := .bad, dollarPrefixed := false }
  if state.line.length ≤ state.pos ∧ state.sourceEof = true then
    { state with fields := { fields with currentToken := .eof } }.recordLocation around state.pos
      lineno
  else { state with fields := fields, control := .collecting state.pos lineno none }

def collect (start lineno : Nat) (part : Option (Partial × Bool))
    (state : LexState World Partial) : LexState World Partial :=
  match around.collectToken state part with
  | .collected pos fields =>
    { state with pos := pos, fields := fields }.recordLocation around start lineno
  | .continueLine pos fields part =>
    { state with pos := pos, fields := fields, control := .continuingLine start lineno part }

/-- `ReadRawStringContinuation`. -/
def continueLine (start lineno : Nat) (part : Partial) (state : LexState World Partial) :
    LexState World Partial :=
  if state.sourceEof then state.goTo (.collecting start lineno (some (part, false)))
  else
    let state := { state with line := [], pos := 0 }.readSourceLine
    state.goTo (.collecting start lineno (some (part, !state.line.isEmpty || !state.sourceEof)))

/-- One step of the lexer, unless it is idle or its source has been deleted. -/
def step (state : LexState World Partial) : Option (LexState World Partial) :=
  if state.current.isNone then none
  else
    match state.control with
    | .idle => none
    | .skippingSpaces =>
      if !state.sourceEof || state.pos < state.line.length then
        some (state.goTo .skippingInLine)
      else some (state.goTo .startingToken)
    | .skippingInLine => some state.skipInLine
    | .spacesSkipped =>
      if state.sourceEof || state.pos < state.line.length ||
          (0 < state.pos && state.fields.assemblerMode) then
        some (state.goTo .startingToken)
      else some (state.goTo (.replacingLine .spaces))
    | .inBlockComment prev => some (state.skipComment prev)
    | .replacingLine after => some (state.replaceLine after)
    | .readingLines after => some (state.readNextLine around after)
    | .lineRead after => some (state.finishLine around after)
    | .startingToken => some (state.startToken around)
    | .collecting start lineno part => some (state.collect around start lineno part)
    | .continuingLine start lineno part => some (state.continueLine start lineno part)

/-- Whether the next step gives up the line. -/
def replacesLine (state : LexState World Partial) : Bool :=
  match state.control with
  | .replacingLine _ => true
  | .continuingLine _ _ _ => !state.sourceEof
  | _ => false

/-- `LexNextToken`: the start, up to the spaces. -/
def nextToken (state : LexState World Partial) : LexState World Partial :=
  if state.fields.replayActive then { state with fields := around.nextReplayToken state }
  else
    { state with
      control := .skippingSpaces
      fields := { state.fields with
        currentGreatereqIsSplit := false
        udSuffix := []
        literalEncoding := .none
        literalIsRaw := false
        literalHasNumericEscape := false } }

/-- `LexConsumeClosingAngle`. -/
def consumeClosingAngle (state : LexState World Partial) : LexState World Partial :=
  match state.fields.currentToken with
  | .greater => state.nextToken around
  | .greatergreater => { state with fields := { state.fields with currentToken := .greater } }
  | .greatergreatereq =>
    { state with fields := { state.fields with
      currentToken := .greatereq, currentGreatereqIsSplit := true } }
  | .greatereq =>
    if state.fields.currentGreatereqIsSplit then
      { state with fields := { state.fields with
        currentToken := .equal, currentGreatereqIsSplit := false } }
    else state
  | _ => state

end LexState

/-- What makes the lexer go on. -/
inductive ReadEvent where
  | nextToken | consumeClosingAngle | step
  deriving DecidableEq, Repr

/-- A step while a token is read; otherwise the next token is asked for, or an angle. -/
def LexState.read {World Partial : Type} (around : LexerSurroundings World Partial)
    (event : ReadEvent) (state : LexState World Partial) : Option (LexState World Partial) :=
  match event with
  | .nextToken => if state.control.isIdle then some (state.nextToken around) else none
  | .consumeClosingAngle =>
    if state.control.isIdle then some (state.consumeClosingAngle around) else none
  | .step => state.step around

end DaveCC.Frontend.Lexing
