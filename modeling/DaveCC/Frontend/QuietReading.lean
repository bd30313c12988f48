import DaveCC.Frontend.SourcePositions

/-!
# Quiet reading

A step of the lexer is quiet when a line that it reads changes nothing that a checkpoint
does not put back. Other steps leave the line and the sources as they are.
-/

namespace DaveCC.Frontend.Lexing

namespace LexState

variable {World Partial : Type} (around : LexerSurroundings World Partial)

/-- A line of source, once it is read, changes nothing but the conditional stack: it
opens no included source and neither its directive nor its macros change the world. -/
def QuietLine (state : LexState World Partial) : Prop :=
  let line := state.readSourceLine
  let result := around.parseDirective line
  result.included = none ∧ result.world = state.world ∧
    (result.isDirective = false → (line.parsed around).isCompiledIn = true →
      (around.replaceMacros (line.parsed around)).world = state.world)

/-- What a step needs of the state before it. The lexer gives up a line only before the
end of its source and behind its first line, and it does not return to an includer. -/
def QuietStep (state : LexState World Partial) : Prop :=
  match state.control with
  | .replacingLine _ => state.sourceEof = false ∧ state.Started
  | .readingLines _ => state.sourceEof = false → state.Started ∧ state.QuietLine around
  | .lineRead _ => state.sourceEof = true → state.current.bind OpenSource.prev = none
  | .continuingLine _ _ _ => state.sourceEof = false → state.Started
  | _ => True

/-- `LexReadLine` is at work. -/
def readingLine (state : LexState World Partial) : Bool :=
  match state.control with
  | .readingLines _ | .lineRead _ => true
  | _ => false

/-- Neither the line nor anything that survives has changed. -/
structure SameLine (state next : LexState World Partial) : Prop where
  line : next.line = state.line
  source : next.source = state.source
  sources : next.sources = state.sources
  nextSource : next.nextSource = state.nextSource
  suppressPreprocessing : next.suppressPreprocessing = state.suppressPreprocessing
  world : next.world = state.world
  readingLine : next.readingLine = false

section Steps

variable {around} {state next : LexState World Partial}

theorem SameLine.surviving (same : SameLine state next) : next.surviving = state.surviving := by
  simp only [LexState.surviving, current, same.source, same.sources, same.nextSource,
    same.suppressPreprocessing, same.world]

theorem sameLine_returnTo (after : AfterLine) : SameLine state (state.returnTo after) := by
  cases after with
  | spaces => exact ⟨rfl, rfl, rfl, rfl, rfl, rfl, rfl⟩
  | inLine => exact ⟨rfl, rfl, rfl, rfl, rfl, rfl, rfl⟩
  | comment prev =>
    simp only [returnTo, afterCommentChar]
    split <;> exact ⟨rfl, rfl, rfl, rfl, rfl, rfl, rfl⟩

theorem sameLine_skipInLine (between : state.readingLine = false) :
    SameLine state state.skipInLine := by
  rw [skipInLine]
  split
  · exact ⟨rfl, rfl, rfl, rfl, rfl, rfl, rfl⟩
  · dsimp only
    split
    · split <;> exact ⟨rfl, rfl, rfl, rfl, rfl, rfl, rfl⟩
    · split
      · exact ⟨rfl, rfl, rfl, rfl, rfl, rfl, rfl⟩
      · split
        · exact ⟨rfl, rfl, rfl, rfl, rfl, rfl, between⟩
        · exact ⟨rfl, rfl, rfl, rfl, rfl, rfl, rfl⟩

theorem sameLine_skipComment (prev : UInt8) : SameLine state (state.skipComment prev) := by
  rw [skipComment]
  split
  · exact ⟨rfl, rfl, rfl, rfl, rfl, rfl, rfl⟩
  · dsimp only [afterCommentChar]
    split
    · exact ⟨rfl, rfl, rfl, rfl, rfl, rfl, rfl⟩
    · split <;> exact ⟨rfl, rfl, rfl, rfl, rfl, rfl, rfl⟩

theorem sameLine_startToken : SameLine state (state.startToken around) := by
  rw [startToken]
  split <;> exact ⟨rfl, rfl, rfl, rfl, rfl, rfl, rfl⟩

theorem sameLine_collect (start lineno : Nat) (part : Option (Partial × Bool)) :
    SameLine state (state.collect around start lineno part) := by
  rw [collect]
  split <;> exact ⟨rfl, rfl, rfl, rfl, rfl, rfl, rfl⟩

theorem sameLine_nextToken (between : state.readingLine = false) :
    SameLine state (state.nextToken around) := by
  rw [nextToken]
  split
  · exact ⟨rfl, rfl, rfl, rfl, rfl, rfl, between⟩
  · exact ⟨rfl, rfl, rfl, rfl, rfl, rfl, rfl⟩

theorem sameLine_consumeClosingAngle (between : state.readingLine = false) :
    SameLine state (state.consumeClosingAngle around) := by
  rw [consumeClosingAngle]
  split
  · exact sameLine_nextToken between
  · exact ⟨rfl, rfl, rfl, rfl, rfl, rfl, between⟩
  · exact ⟨rfl, rfl, rfl, rfl, rfl, rfl, between⟩
  · split <;> exact ⟨rfl, rfl, rfl, rfl, rfl, rfl, between⟩
  · exact ⟨rfl, rfl, rfl, rfl, rfl, rfl, between⟩

theorem surviving_parsed (started : state.Started)
    (noSource : (around.parseDirective state).included = none)
    (sameWorld : (around.parseDirective state).world = state.world) :
    (state.parsed around).surviving = state.surviving := by
  have reading := surviving_readLines started (around.parseDirective state).linesRead
  have parsed : (state.parsed around).surviving =
      { (state.readLines (around.parseDirective state).linesRead).surviving with
        world := (around.parseDirective state).world } := by
    simp only [LexState.parsed, noSource]
    rfl
  rw [parsed, reading, sameWorld]
  rfl

theorem surviving_replaced (started : state.Started)
    (sameWorld : (around.replaceMacros state).world = state.world) :
    (state.replaced around).surviving = state.surviving := by
  have reading := surviving_readLines started (around.replaceMacros state).linesRead
  have replaced : (state.replaced around).surviving =
      { (state.readLines (around.replaceMacros state).linesRead).surviving with
        world := (around.replaceMacros state).world } := rfl
  rw [replaced, reading, sameWorld]
  rfl

theorem world_of_surviving (same : next.surviving = state.surviving) : next.world = state.world :=
  congrArg Surviving.world same

theorem surviving_readNextLine (started : state.Started) (quiet : state.QuietLine around)
    (after : AfterLine) : (state.readNextLine around after).surviving = state.surviving := by
  have line := surviving_readSourceLine started
  have lineStarted := started_of_surviving line started
  have parsed := surviving_parsed lineStarted quiet.1
    (quiet.2.1.trans (world_of_surviving line).symm)
  have parsedStarted := started_of_surviving (parsed.trans line) started
  rw [readNextLine]
  split
  · exact (sameLine_returnTo after).surviving
  · dsimp only
    split
    · exact parsed.trans line
    · split
      · next text =>
          rw [Bool.and_eq_true, Bool.not_eq_true'] at text
          have replaced := surviving_replaced parsedStarted
            ((quiet.2.2 text.1 text.2).trans (world_of_surviving (parsed.trans line)).symm)
          exact replaced.trans (parsed.trans line)
      · exact parsed.trans line

/-- A step that neither reads a line nor gives one up. -/
theorem sameLine_step (between : state.readingLine = false) (keeps : state.replacesLine = false)
    (stepped : state.step around = some next) : SameLine state next := by
  rw [step] at stepped
  split at stepped
  · cases stepped
  · split at stepped
    · cases stepped
    · split at stepped <;> cases stepped <;> exact ⟨rfl, rfl, rfl, rfl, rfl, rfl, rfl⟩
    · cases stepped
      exact sameLine_skipInLine between
    · split at stepped <;> cases stepped <;> exact ⟨rfl, rfl, rfl, rfl, rfl, rfl, rfl⟩
    · cases stepped
      exact sameLine_skipComment _
    · next control => rw [replacesLine, control] at keeps; cases keeps
    · next control => rw [readingLine, control] at between; cases between
    · next control => rw [readingLine, control] at between; cases between
    · cases stepped
      exact sameLine_startToken
    · cases stepped
      exact sameLine_collect _ _ _
    · next control =>
        cases stepped
        rw [replacesLine, control, Bool.not_eq_false'] at keeps
        rw [continueLine, if_pos keeps]
        exact ⟨rfl, rfl, rfl, rfl, rfl, rfl, rfl⟩

theorem surviving_replaceLine (started : state.Started) (after : AfterLine) :
    (state.replaceLine after).surviving = state.surviving := by
  have cleared : LexState.surviving { state with line := [], pos := 0 } = state.surviving := rfl
  have line := surviving_readSourceLine (started_of_surviving cleared started)
  rw [replaceLine]
  split
  · split
    · exact (sameLine_returnTo after).surviving
    · exact (sameLine_returnTo after).surviving.trans (line.trans cleared)
  · exact cleared

theorem surviving_finishLine
    (outermost : state.sourceEof = true → state.current.bind OpenSource.prev = none)
    (after : AfterLine) : (state.finishLine around after).surviving = state.surviving := by
  rw [finishLine]
  split
  · next prev isEof isPrev =>
      rw [outermost isEof] at isPrev
      cases isPrev
  · exact (sameLine_returnTo after).surviving

theorem surviving_continueLine (started : state.sourceEof = false → state.Started)
    (start lineno : Nat) (part : Partial) :
    (state.continueLine start lineno part).surviving = state.surviving := by
  rw [continueLine]
  split
  · rfl
  · next more =>
      have cleared : LexState.surviving { state with line := [], pos := 0 } = state.surviving := rfl
      have begun := started (Bool.eq_false_iff.mpr more)
      exact (surviving_readSourceLine (started_of_surviving cleared begun)).trans cleared

/-- A quiet step. -/
theorem surviving_step (quiet : state.QuietStep around) (stepped : state.step around = some next) :
    next.surviving = state.surviving := by
  rw [QuietStep] at quiet
  cases control : state.control with
  | replacingLine after =>
    simp only [step, control] at stepped quiet
    split at stepped
    · cases stepped
    · cases stepped
      exact surviving_replaceLine quiet.2 after
  | readingLines after =>
    simp only [step, control] at stepped quiet
    split at stepped
    · cases stepped
    · cases stepped
      cases more : state.sourceEof with
      | true =>
        rw [readNextLine, if_pos more]
        exact (sameLine_returnTo after).surviving
      | false => exact surviving_readNextLine (quiet more).1 (quiet more).2 after
  | lineRead after =>
    simp only [step, control] at stepped quiet
    split at stepped
    · cases stepped
    · cases stepped
      exact surviving_finishLine quiet after
  | continuingLine start lineno part =>
    simp only [step, control] at stepped quiet
    split at stepped
    · cases stepped
    · cases stepped
      exact surviving_continueLine quiet start lineno part
  | idle | skippingSpaces | skippingInLine | spacesSkipped | inBlockComment | startingToken
    | collecting =>
      have between : state.readingLine = false := by rw [readingLine, control]
      have keeps : state.replacesLine = false := by rw [replacesLine, control]
      exact (sameLine_step between keeps stepped).surviving

end Steps

end LexState

end DaveCC.Frontend.Lexing
