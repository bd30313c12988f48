import DaveCC.Frontend.QuietReading
import DaveCC.Frontend.SavedLines

/-!
# Backtracking

In a run whose steps are quiet while checkpoints are outstanding, each outstanding
checkpoint takes the lexer back to the state it was saved in, in whichever order the
checkpoints are restored and discarded.
-/

namespace DaveCC.Frontend.Lexing

open LexState

variable {World Partial : Type} {around : LexerSurroundings World Partial}

/-- The end of the current source has not been reported, when it is a file. -/
def LexState.Rewindable (state : LexState World Partial) : Prop :=
  ∀ opened, state.current = some opened → Lexing.Rewindable opened.reading

namespace Session

variable (around) in
/-- What an event needs of the state before it. Saving keeps the line apart, unless it
fails to at the end of a file; and a line with an outstanding checkpoint is not given up
at the end of a file. -/
def Quiet (event : Event) (session : Session World Partial) : Prop :=
  match event with
  | .read .step => session.checkpoints = [] ∨ session.lex.QuietStep around
  | .save allocated => allocated = true ∨ session.savedLine.isSome = true ∨ session.lex.Rewindable
  | .restore index => ∀ target, session.checkpoints[index]? = some target →
      target.checkpoint.savedLine = session.savedLine ∨ session.lex.Rewindable ∨
        ∀ outstanding ∈ session.checkpoints, outstanding.checkpoint.savedLine ≠ session.savedLine
  | _ => True

/-- The text that has been kept of a saved line. -/
def textOf (id : Nat) (session : Session World Partial) : Option Line :=
  (session.savedLines id).bind SavedLine.text

/-- A line and the sources while it was the line of the lexer. -/
abbrev Origin := Nat → Line × (SourceId → Option OpenSource)

/-- An outstanding checkpoint can take the lexer back. -/
structure Held (origin : Origin) (session : Session World Partial)
    (outstanding : Outstanding World Partial) : Prop where
  idle : outstanding.state.control = .idle
  surviving : session.lex.surviving = outstanding.state.surviving
  taken : ∃ opened, outstanding.state.current = some opened ∧
    outstanding.checkpoint =
      takeCheckpoint outstanding.state opened outstanding.checkpoint.savedLine
  unshared : outstanding.checkpoint.savedLine = none → outstanding.state.Rewindable
  shared : ∀ id, outstanding.checkpoint.savedLine = some id →
    origin id = (outstanding.state.line, outstanding.state.sources)
  kept : ∀ id, outstanding.checkpoint.savedLine = some id → session.savedLine ≠ some id →
    session.textOf id = some outstanding.state.line ∧ outstanding.state.Rewindable

/-- Every outstanding checkpoint can take the lexer back. -/
structure Backed (origin : Origin) (session : Session World Partial) : Prop where
  counted : session.Counted
  reading : session.lex.readingLine = true → session.savedLine = none
  text : ∀ id text, session.savedLine = some id → session.textOf id = some text →
    text = session.lex.line
  current : ∀ id, session.savedLine = some id → origin id = (session.lex.line, session.lex.sources)
  held : ∀ outstanding ∈ session.checkpoints, Held origin session outstanding

section Steps

variable {session next : Session World Partial} {outstanding : Outstanding World Partial}
  {origin : Origin}

variable {id : Nat}

theorem textOf_willChangeLine (differs : session.savedLine ≠ some id) :
    session.willChangeLine.textOf id = session.textOf id := by
  cases isSaved : session.savedLine with
  | none => simp only [willChangeLine, isSaved, textOf]
  | some current =>
    have other : current ≠ id := fun same => differs (same ▸ isSaved)
    simp only [willChangeLine, isSaved, textOf, releaseSavedLine, keepText, Option.some.injEq,
      if_neg other]

/-- The text of a line that is given up is kept for its checkpoints. -/
theorem textOf_givenUp (backed : session.Backed origin) (isSaved : session.savedLine = some id)
    (held : session.checkpointsOf id ≠ 0) :
    session.willChangeLine.textOf id = some session.lex.line := by
  have refs := backed.counted.refs id
  have text := backed.text id
  rw [holders, if_pos isSaved, refsFor, if_neg (Nat.succ_ne_zero _)] at refs
  obtain ⟨saved, isLine, refs⟩ := Option.map_eq_some_iff.mp refs
  rw [textOf, isLine, Option.bind_some] at text
  have several : 1 < saved.refs := refs ▸ Nat.succ_lt_succ (Nat.pos_of_ne_zero held)
  have remain : saved.refs - 1 ≠ 0 := Nat.sub_ne_zero_of_lt several
  simp only [textOf, willChangeLine, isSaved, releaseSavedLine, keepText, if_true, isLine,
    Option.map_some, Option.bind_some]
  cases isText : saved.text with
  | none => simp only [Option.isNone_none, several, and_self, if_true, if_neg remain, Option.bind_some]
  | some line =>
    simp only [Option.isNone_some, Bool.false_eq_true, false_and, if_false, if_neg remain,
      Option.bind_some, isText]
    exact congrArg some (text line isSaved isText)

theorem checkpointsOf_ne_zero (member : outstanding ∈ session.checkpoints)
    (isHeld : outstanding.checkpoint.savedLine = some id) : session.checkpointsOf id ≠ 0 :=
  Nat.ne_of_gt (List.countP_pos_iff.mpr ⟨outstanding, member, decide_eq_true isHeld⟩)

variable {state other : LexState World Partial}

theorem current_of_surviving (same : state.surviving = other.surviving)
    (sources : state.sources = other.sources) : state.current = other.current := by
  have source : state.source = other.source := congrArg Surviving.source same
  rw [LexState.current, LexState.current, sources, source]

theorem rewindable_of_current (same : state.current = other.current)
    (rewindable : state.Rewindable) : other.Rewindable :=
  fun opened isOpen => rewindable opened (same.trans isOpen)

/-- The checkpoint of a line that is given up holds its text. -/
theorem held_willChangeLine (backed : session.Backed origin)
    (member : outstanding ∈ session.checkpoints)
    (rewindable : ∀ id, session.savedLine = some id → outstanding.checkpoint.savedLine = some id →
      session.lex.Rewindable) : Held origin session.willChangeLine outstanding := by
  have held := backed.held outstanding member
  have lex : session.willChangeLine.lex = session.lex := by
    cases isSaved : session.savedLine <;> simp only [willChangeLine, isSaved]
  refine ⟨held.idle, lex ▸ held.surviving, held.taken, held.unshared, held.shared, ?_⟩
  intro id isHeld _
  by_cases isSaved : session.savedLine = some id
  · have same := (backed.current id isSaved).symm.trans (held.shared id isHeld)
    rw [Prod.mk.injEq] at same
    rw [textOf_givenUp backed isSaved (checkpointsOf_ne_zero member isHeld), same.1]
    exact ⟨rfl, rewindable_of_current (current_of_surviving held.surviving same.2)
      (rewindable id isSaved isHeld)⟩
  · rw [textOf_willChangeLine isSaved]
    exact held.kept id isHeld isSaved

variable {lex : LexState World Partial}

theorem held_setLex (held : Held origin session outstanding)
    (same : lex.surviving = session.lex.surviving) :
    Held origin { session with lex := lex } outstanding :=
  ⟨held.idle, same.trans held.surviving, held.taken, held.unshared, held.shared, held.kept⟩

theorem rewindable_of_quiet (quiet : state.QuietStep around)
    (replaces : state.replacesLine = true) : state.Rewindable := by
  have more : state.sourceEof = false := by
    rw [LexState.QuietStep] at quiet
    rw [replacesLine] at replaces
    split at replaces
    · next control =>
        rw [control] at quiet
        exact quiet.1
    · exact Bool.not_eq_true' _ ▸ replaces
    · cases replaces
  intro opened isOpen
  apply rewindable_of_not_eof
  simpa only [sourceEof, isOpen, Option.any_some] using more

/-- The line is given up and the lexer goes on. -/
theorem backed_changed (backed : session.Backed origin) (held : ∀ outstanding ∈ session.checkpoints,
      Held origin { session.willChangeLine with lex := lex } outstanding) :
    Backed origin { session.willChangeLine with lex := lex } where
  counted := counted_setLex (counted_willChangeLine backed.counted) lex
  reading := fun _ => savedLine_willChangeLine
  text := by
    intro id text isSaved
    rw [savedLine_willChangeLine] at isSaved
    cases isSaved
  current := by
    intro id isSaved
    rw [savedLine_willChangeLine] at isSaved
    cases isSaved
  held := by
    have checkpoints : session.willChangeLine.checkpoints = session.checkpoints := by
      cases isSaved : session.savedLine <;> simp only [willChangeLine, isSaved]
    rw [checkpoints]
    exact held

/-- The lexer goes on in its line. -/
theorem backed_sameLine (backed : session.Backed origin)
    (same : LexState.SameLine session.lex lex) : Backed origin { session with lex := lex } where
  counted := counted_setLex backed.counted lex
  reading := by
    intro reading
    rw [same.readingLine] at reading
    cases reading
  text := fun id text isSaved isText => (backed.text id text isSaved isText).trans same.line.symm
  current := by
    intro id isSaved
    rw [same.line, same.sources]
    exact backed.current id isSaved
  held := fun outstanding member => held_setLex (backed.held outstanding member) same.surviving

/-- The lexer reads lines. -/
theorem backed_reading (backed : session.Backed origin) (unsaved : session.savedLine = none)
    (surviving : session.checkpoints = [] ∨ lex.surviving = session.lex.surviving) :
    Backed origin { session with lex := lex } where
  counted := counted_setLex backed.counted lex
  reading := fun _ => unsaved
  text := by
    intro id text isSaved
    rw [unsaved] at isSaved
    cases isSaved
  current := by
    intro id isSaved
    rw [unsaved] at isSaved
    cases isSaved
  held := by
    intro outstanding member
    cases surviving with
    | inl none =>
      rw [none] at member
      cases member
    | inr same => exact held_setLex (backed.held outstanding member) same

theorem readingLine_of_idle (idle : state.control.isIdle = true) : state.readingLine = false := by
  rw [readingLine]
  cases control : state.control <;> first | rfl | (rw [control] at idle; cases idle)

theorem backed_step (backed : session.Backed origin)
    (quiet : session.checkpoints = [] ∨ session.lex.QuietStep around)
    (stepped : session.lex.step around = some lex) :
    Backed origin
      { (if session.lex.replacesLine = true then session.willChangeLine else session) with
        lex := lex } := by
  cases replaces : session.lex.replacesLine with
  | true =>
    apply backed_changed backed
    intro outstanding member
    cases quiet with
    | inl none =>
      rw [none] at member
      cases member
    | inr quiet =>
      have held := held_willChangeLine backed member fun _ _ _ =>
        rewindable_of_quiet quiet replaces
      have unchanged : session.willChangeLine.lex = session.lex := by
        cases isSaved : session.savedLine <;> simp only [willChangeLine, isSaved]
      exact held_setLex held ((surviving_step quiet stepped).trans
        (congrArg surviving unchanged).symm)
  | false =>
    cases between : session.lex.readingLine with
    | false => exact backed_sameLine backed (sameLine_step between replaces stepped)
    | true =>
      apply backed_reading backed (backed.reading between)
      exact quiet.imp id fun quiet => surviving_step quiet stepped

theorem backed_read (backed : session.Backed origin) {event : ReadEvent}
    (quiet : session.Quiet around (.read event))
    (isRead : session.read around event = some next) : next.Backed origin := by
  obtain ⟨lex, isNext, isRead⟩ := Option.bind_eq_some_iff.mp isRead
  cases isRead
  cases event with
  | step =>
    simp only [true_and]
    exact backed_step backed quiet isNext
  | nextToken =>
    simp only [LexState.read] at isNext
    split at isNext
    · next idle =>
        cases isNext
        exact backed_sameLine backed (sameLine_nextToken (readingLine_of_idle idle))
    · cases isNext
  | consumeClosingAngle =>
    simp only [LexState.read] at isNext
    split at isNext
    · next idle =>
        cases isNext
        exact backed_sameLine backed (sameLine_consumeClosingAngle (readingLine_of_idle idle))
    · cases isNext

theorem textOf_retain (held id : Nat) (lines : Nat → Option SavedLine) :
    (retainSavedLine held lines id).bind SavedLine.text = (lines id).bind SavedLine.text := by
  rw [retainSavedLine]
  split
  · cases lines id <;> rfl
  · rfl

theorem textOf_release {held : Option Nat} {lines : Nat → Option SavedLine}
    (remains : releaseSavedLine held lines id ≠ none) :
    (releaseSavedLine held lines id).bind SavedLine.text = (lines id).bind SavedLine.text := by
  rw [releaseSavedLine] at remains ⊢
  split
  · next same =>
      rw [if_pos same] at remains
      cases isLine : lines id with
      | none => rfl
      | some saved =>
        rw [isLine, Option.bind_some] at remains
        simp only [Option.bind_some]
        split
        · next last => exact absurd (if_pos last) remains
        · rfl
  · rfl

theorem ne_none_of_member (counted : session.Counted) (member : outstanding ∈ session.checkpoints)
    (isHeld : outstanding.checkpoint.savedLine = some id) : session.savedLines id ≠ none := by
  intro freed
  have refs := counted.refs id
  have holders : session.holders id ≠ 0 := fun zero =>
    checkpointsOf_ne_zero member isHeld (Nat.add_eq_zero_iff.mp zero).1
  rw [freed, refsFor, if_neg holders] at refs
  cases refs

variable {index : Nat}

theorem backed_discard (backed : session.Backed origin)
    (isDiscarded : session.discard index = some next) : next.Backed origin := by
  have counted := counted_discard backed.counted isDiscarded
  obtain ⟨discarded, -, isNext⟩ := Option.bind_eq_some_iff.mp isDiscarded
  cases isNext
  refine ⟨counted, backed.reading, ?_, backed.current, ?_⟩
  · intro id text isSaved isText
    apply backed.text id text isSaved
    rw [← isText]
    apply (textOf_release _).symm
    intro freed
    rw [textOf] at isText
    simp only [freed] at isText
    cases isText
  · intro outstanding member
    have held := backed.held outstanding (List.mem_of_mem_eraseIdx member)
    refine ⟨held.idle, held.surviving, held.taken, held.unshared, held.shared, ?_⟩
    intro id isHeld differs
    have kept := held.kept id isHeld differs
    have text := textOf_release (ne_none_of_member counted member isHeld)
    exact ⟨text.trans kept.1, kept.2⟩

theorem ne_nextSavedLine (counted : session.Counted) (member : outstanding ∈ session.checkpoints)
    (isHeld : outstanding.checkpoint.savedLine = some id) : id ≠ session.nextSavedLine := by
  intro isNext
  have unheld := counted.fresh id (Nat.le_of_eq isNext.symm)
  exact checkpointsOf_ne_zero member isHeld (Nat.add_eq_zero_iff.mp unheld).1

theorem backed_withNewLine (backed : session.Backed origin) (unsaved : session.savedLine = none)
    (between : session.lex.readingLine = false) :
    session.withNewLine.Backed
      (Function.update origin session.nextSavedLine (session.lex.line, session.lex.sources)) where
  counted := counted_withNewLine backed.counted unsaved
  reading := fun reading => absurd (reading.symm.trans between) (by decide)
  text := by
    intro id text isSaved isText
    cases isSaved
    simp only [textOf, withNewLine, if_true] at isText
    cases isText
  current := by
    intro id isSaved
    cases isSaved
    exact Function.update_self _ _ _
  held := by
    intro outstanding member
    have held := backed.held outstanding member
    refine ⟨held.idle, held.surviving, held.taken, held.unshared, ?_, ?_⟩
    · intro id isHeld
      rw [Function.update_of_ne (ne_nextSavedLine backed.counted member isHeld)]
      exact held.shared id isHeld
    · intro id isHeld _
      have unsavedLine : session.savedLine ≠ some id := fun isSaved => by
        rw [unsaved] at isSaved
        cases isSaved
      have text : session.withNewLine.textOf id = session.textOf id := by
        simp only [textOf, withNewLine, if_neg (ne_nextSavedLine backed.counted member isHeld)]
      rw [text]
      exact held.kept id isHeld unsavedLine

theorem backed_shareLine (backed : session.Backed origin)
    (between : session.lex.readingLine = false) (allocated : Bool) :
    ∃ origin, (session.shareLine allocated).Backed origin := by
  cases isSaved : session.savedLine with
  | some id =>
    rw [shareLine_some isSaved]
    exact ⟨origin, backed⟩
  | none =>
    cases allocated with
    | false =>
      rw [shareLine_failed]
      exact ⟨origin, backed⟩
    | true =>
      rw [shareLine_none isSaved]
      exact ⟨_, backed_withNewLine backed isSaved between⟩

theorem textOf_hold (id : Nat) : (session.hold outstanding).textOf id = session.textOf id := by
  rw [textOf, hold]
  cases session.savedLine with
  | none => rfl
  | some held => exact textOf_retain held id session.savedLines

theorem backed_hold (backed : session.Backed origin) (idle : session.lex.control = .idle)
    {opened : OpenSource} (isOpen : session.lex.current = some opened)
    (rewindable : session.savedLine = none → session.lex.Rewindable) :
    (session.hold {
      checkpoint := takeCheckpoint session.lex opened session.savedLine
      state := session.lex }).Backed origin where
  counted := counted_hold backed.counted rfl
  reading := backed.reading
  text := by
    intro id text isSaved isText
    rw [textOf_hold] at isText
    exact backed.text id text isSaved isText
  current := backed.current
  held := by
    intro outstanding member
    cases List.mem_cons.mp member with
    | inl isNew =>
      cases isNew
      exact ⟨idle, rfl, ⟨opened, isOpen, rfl⟩, rewindable, backed.current,
        fun id isHeld differs => absurd isHeld differs⟩
    | inr isOld =>
      have held := backed.held outstanding isOld
      refine ⟨held.idle, held.surviving, held.taken, held.unshared, held.shared, ?_⟩
      intro id isHeld differs
      rw [textOf_hold]
      exact held.kept id isHeld differs

theorem shareLine_lex (allocated : Bool) : (session.shareLine allocated).lex = session.lex := by
  cases isSaved : session.savedLine <;> cases allocated <;> simp only [shareLine, isSaved]

theorem idle_of_isIdle {control : Control Partial} (idle : control.isIdle = true) :
    control = .idle := by
  cases control <;> first | rfl | cases idle

theorem backed_save (backed : session.Backed origin) {allocated : Bool}
    (idle : session.lex.control.isIdle = true) (quiet : session.Quiet around (.save allocated))
    (isSaved : session.save allocated = some next) : ∃ origin, next.Backed origin := by
  obtain ⟨opened, isOpen, isNext⟩ := Option.map_eq_some_iff.mp isSaved
  cases isNext
  obtain ⟨origin, shared⟩ := backed_shareLine backed (readingLine_of_idle idle) allocated
  have lex : (session.shareLine allocated).lex = session.lex := shareLine_lex allocated
  have rewindable : (session.shareLine allocated).savedLine = none → session.lex.Rewindable := by
    intro unsaved
    cases isShared : session.savedLine with
    | some id =>
      rw [shareLine_some isShared, isShared] at unsaved
      cases unsaved
    | none =>
      cases allocated with
      | true =>
        rw [shareLine_none isShared] at unsaved
        cases unsaved
      | false =>
        rw [Quiet, isShared] at quiet
        exact (quiet.resolve_left Bool.false_ne_true).resolve_left Bool.false_ne_true
  have held := backed_hold shared (lex ▸ idle_of_isIdle idle) (lex ▸ isOpen) (lex ▸ rewindable)
  rw [lex] at held
  exact ⟨origin, held⟩

theorem willChangeLine_checkpoints : session.willChangeLine.checkpoints = session.checkpoints := by
  cases isSaved : session.savedLine <;> simp only [willChangeLine, isSaved]

theorem willChangeLine_setLex (same : lex.line = session.lex.line) :
    willChangeLine { session with lex := lex } = { session.willChangeLine with lex := lex } := by
  cases isSaved : session.savedLine <;> simp only [willChangeLine, isSaved, same]

/-- Putting back the line does not depend on the rest of the lexer. -/
theorem restoreLine_setLex {checkpoint : LexCheckpoint} (same : lex.line = session.lex.line) :
    restoreLine checkpoint { session with lex := lex } =
      (restoreLine checkpoint session).map fun lined =>
        { lined with lex := { lex with line := lined.lex.line } } := by
  rw [restoreLine, restoreLine, willChangeLine_setLex same]
  cases checkpoint.savedLine with
  | none => rfl
  | some id =>
    simp only
    split
    · simp [← same]
    · cases session.willChangeLine.savedLines id with
      | none => rfl
      | some saved =>
        cases isText : saved.text with
        | none => simp only [Option.bind_eq_bind, Option.bind_some, isText, Option.bind_none]; rfl
        | some text => simp only [Option.bind_eq_bind, Option.bind_some, isText]; rfl

/-- The current source with its position put back is the one of the checkpoint. -/
theorem restoreSource_eq {state : LexState World Partial} {opened : OpenSource}
    {savedLine : Option Nat} {lex : LexState World Partial}
    (surviving : lex.surviving = state.surviving) (isOpen : state.current = some opened)
    (lineIsCurrent : Bool) (unmoved : lineIsCurrent = true → lex.sources = state.sources)
    (rewindable : lineIsCurrent = false → state.Rewindable) :
    restoreSource (takeCheckpoint state opened savedLine) lineIsCurrent lex =
      some { lex with source := state.source, sources := state.sources } := by
  have source : lex.source = state.source := congrArg Surviving.source surviving
  have here : lex.surviving.here = state.surviving.here := congrArg Surviving.here surviving
  have elsewhere : lex.surviving.elsewhere = state.surviving.elsewhere :=
    congrArg Surviving.elsewhere surviving
  simp only [LexState.surviving, isOpen, Option.map_some] at here
  obtain ⟨found, isFound, here⟩ := Option.map_eq_some_iff.mp here
  rw [LexState.current, source] at isFound
  simp only [Prod.mk.injEq] at here
  have sources : (fun id =>
      if id = state.source ∧ lineIsCurrent = false then
        some { found with
          reading := { seek (positionOf opened.reading) found.reading with
            lineno := opened.reading.lineno }
          pathIndex := opened.pathIndex }
      else lex.sources id) = state.sources := by
    funext id
    cases lineIsCurrent with
    | true =>
      simp only [Bool.true_eq_false, and_false, if_false]
      exact congrFun (unmoved rfl) id
    | false =>
      simp only [and_true]
      split
      · next isSource =>
          rw [seek_eq here.1.symm here.2.1.symm (rewindable rfl opened isOpen), here.2.2.2,
            isSource]
          exact isOpen.symm
      · next other =>
          have same := congrFun elsewhere id
          simp only [LexState.surviving, source, if_neg other] at same
          exact same
  rw [restoreSource, takeCheckpoint]
  simp [isFound, sources]

/-- The lexer with another line. -/
def setLine (line : Line) (session : Session World Partial) : Session World Partial :=
  { session with lex := { session.lex with line := line } }

/-- Putting back the line of an outstanding checkpoint. -/
theorem restoreLine_eq (backed : session.Backed origin)
    (member : outstanding ∈ session.checkpoints) :
    ∃ lined, restoreLine outstanding.checkpoint session = some lined ∧
      lined.lex.line = outstanding.state.line ∧
      lined.savedLine = outstanding.checkpoint.savedLine ∧
      lined.checkpoints = session.checkpoints ∧
      (∀ id, outstanding.checkpoint.savedLine = some id → session.savedLine = some id →
        lined = session) ∧
      ((∀ id, session.savedLine = some id → outstanding.checkpoint.savedLine ≠ some id) →
        ∀ id, lined.textOf id = session.willChangeLine.textOf id) := by
  have held := backed.held outstanding member
  obtain ⟨opened, isOpen, taken⟩ := held.taken
  cases isHeld : outstanding.checkpoint.savedLine with
  | none =>
    have line : outstanding.checkpoint.line = outstanding.state.line := by
      rw [taken, isHeld]
      rfl
    refine ⟨session.willChangeLine.setLine outstanding.checkpoint.line, ?_, line,
      savedLine_willChangeLine, willChangeLine_checkpoints, ?_, ?_⟩
    · simp only [restoreLine, isHeld]
      rfl
    · intro _ isHeld
      cases isHeld
    · exact fun _ _ => rfl
  | some id =>
    by_cases isSaved : session.savedLine = some id
    · have line := (backed.current id isSaved).symm.trans (held.shared id isHeld)
      refine ⟨session, by simp only [restoreLine, isHeld, if_pos isSaved],
        congrArg Prod.fst line, isSaved, rfl, fun _ _ _ => rfl, ?_⟩
      exact fun differs => absurd rfl (differs id isSaved)
    · have kept := held.kept id isHeld isSaved
      have text := (textOf_willChangeLine isSaved).trans kept.1
      obtain ⟨saved, isLine, isText⟩ := Option.bind_eq_some_iff.mp text
      refine ⟨(session.willChangeLine.adopt id).setLine outstanding.state.line, ?_, rfl, rfl,
        willChangeLine_checkpoints, ?_, ?_⟩
      · simp only [restoreLine, isHeld, if_neg isSaved, isLine, Option.bind_eq_bind,
          Option.bind_some, isText]
        rfl
      · intro _ same isOther
        cases same
        exact absurd isOther isSaved
      · exact fun _ other => textOf_retain id other session.willChangeLine.savedLines

/-- An outstanding checkpoint takes the lexer back to the state it was saved in. -/
theorem restore_eq (backed : session.Backed origin) (idle : session.lex.control = .idle)
    (member : outstanding ∈ session.checkpoints) :
    ∃ lined, restoreLine outstanding.checkpoint session = some lined ∧
      session.restore outstanding.checkpoint = some { lined with lex := outstanding.state } := by
  have held := backed.held outstanding member
  obtain ⟨opened, isOpen, taken⟩ := held.taken
  obtain ⟨lined, isLined, line, -, -, -, -⟩ := restoreLine_eq backed member
  refine ⟨lined, isLined, ?_⟩
  have source : (outstanding.checkpoint.source == session.lex.source) = true := by
    rw [taken]
    exact beq_iff_eq.mpr (congrArg Surviving.source held.surviving).symm
  have unmoved : (outstanding.checkpoint.savedLine.isSome &&
      outstanding.checkpoint.savedLine == session.savedLine &&
      outstanding.checkpoint.source == session.lex.source) = true →
      session.lex.sources = outstanding.state.sources := by
    rw [source, Bool.and_true, Bool.and_eq_true, beq_iff_eq]
    intro ⟨isSome, same⟩
    obtain ⟨id, isHeld⟩ := Option.isSome_iff_exists.mp isSome
    have isSaved : session.savedLine = some id := same.symm.trans isHeld
    exact congrArg Prod.snd ((backed.current id isSaved).symm.trans (held.shared id isHeld))
  have rewindable : (outstanding.checkpoint.savedLine.isSome &&
      outstanding.checkpoint.savedLine == session.savedLine &&
      outstanding.checkpoint.source == session.lex.source) = false →
      outstanding.state.Rewindable := by
    rw [source, Bool.and_true]
    intro other
    cases isHeld : outstanding.checkpoint.savedLine with
    | none => exact held.unshared isHeld
    | some id =>
      apply (held.kept id isHeld _).2
      intro isSaved
      rw [isHeld, isSaved, Option.isSome_some, Bool.true_and, beq_self_eq_true] at other
      cases other
  have reopened := @restoreSource_eq World Partial outstanding.state opened
    outstanding.checkpoint.savedLine session.lex held.surviving isOpen _ unmoved rewindable
  rw [← taken] at reopened
  have relined : restoreLine outstanding.checkpoint
      { session with lex := { session.lex with
          source := outstanding.state.source, sources := outstanding.state.sources } } = _ :=
    restoreLine_setLex rfl
  rw [isLined] at relined
  have restored : LexState.mk session.lex.control lined.lex.line outstanding.checkpoint.pos
      outstanding.checkpoint.fields outstanding.state.source outstanding.state.sources
      session.lex.nextSource session.lex.suppressPreprocessing outstanding.checkpoint.ifStack
      outstanding.checkpoint.isCompiledIn session.lex.world = outstanding.state := by
    have nextSource : session.lex.nextSource = outstanding.state.nextSource :=
      congrArg Surviving.nextSource held.surviving
    have suppress : session.lex.suppressPreprocessing = outstanding.state.suppressPreprocessing :=
      congrArg Surviving.suppressPreprocessing held.surviving
    have world : session.lex.world = outstanding.state.world :=
      congrArg Surviving.world held.surviving
    rw [taken, line, idle, ← held.idle, nextSource, suppress, world]
    rfl
  simp [restore, reopened, relined, restored]

theorem backed_restore (backed : session.Backed origin) (idle : session.lex.control = .idle)
    (inside : session.checkpoints[index]? = some outstanding)
    (quiet : session.Quiet around (.restore index))
    (isRestored : session.restore outstanding.checkpoint = some next) : next.Backed origin := by
  have counted := counted_restore backed.counted isRestored
  have member := List.mem_of_getElem? inside
  have held := backed.held outstanding member
  obtain ⟨lined, isLined, isNext⟩ := restore_eq backed idle member
  obtain ⟨_, isLined', line, savedLine, checkpoints, same, changed⟩ := restoreLine_eq backed member
  cases isLined.symm.trans isLined'
  cases isNext.symm.trans isRestored
  refine ⟨counted, ?_, ?_, fun id isSaved => held.shared id (savedLine.symm.trans isSaved), ?_⟩
  · intro reading
    have between : outstanding.state.readingLine = false := by
      rw [readingLine, held.idle]
    rw [between] at reading
    cases reading
  · intro id text isHeld isText
    have isHeld : outstanding.checkpoint.savedLine = some id := savedLine.symm.trans isHeld
    have isText : lined.textOf id = some text := isText
    by_cases isSaved : session.savedLine = some id
    · have unchanged := same id isHeld isSaved
      rw [unchanged] at isText line
      exact (backed.text id text isSaved isText).trans line
    · have differs (current : Nat) (isCurrent : session.savedLine = some current) :
          outstanding.checkpoint.savedLine ≠ some current := by
        intro isHeld'
        cases isHeld.symm.trans isHeld'
        exact isSaved isCurrent
      rw [changed differs, textOf_willChangeLine isSaved, (held.kept id isHeld isSaved).1] at isText
      exact (Option.some.inj isText).symm
  · intro other isOther
    have isOther : other ∈ session.checkpoints := checkpoints ▸ isOther
    by_cases isCurrent : ∃ id, session.savedLine = some id ∧
        outstanding.checkpoint.savedLine = some id
    · obtain ⟨id, isSaved, isHeld⟩ := isCurrent
      have unchanged := same id isHeld isSaved
      rw [unchanged]
      exact held_setLex (backed.held other isOther) held.surviving.symm
    · have differs (current : Nat) (isSaved : session.savedLine = some current) :
          outstanding.checkpoint.savedLine ≠ some current :=
        fun isHeld => isCurrent ⟨current, isSaved, isHeld⟩
      have givenUp := held_willChangeLine backed isOther fun id isSaved isHeld => by
        cases quiet outstanding inside with
        | inl same => exact absurd (same.trans isSaved) (differs id isSaved)
        | inr quiet =>
          cases quiet with
          | inl rewindable => exact rewindable
          | inr unheld => exact absurd (isHeld.trans isSaved.symm) (unheld other isOther)
      refine ⟨givenUp.idle, ?_, givenUp.taken, givenUp.unshared, givenUp.shared, ?_⟩
      · exact held.surviving.symm.trans (backed.held other isOther).surviving
      · intro id isHeld _
        have kept := givenUp.kept id isHeld (by simp [savedLine_willChangeLine])
        exact ⟨(changed differs id).trans kept.1, kept.2⟩

/-- What happens to the lexer keeps every outstanding checkpoint able to take it back. -/
theorem backed_perform (backed : session.Backed origin) {event : Event}
    (quiet : session.Quiet around event)
    (performed : session.perform around event = some next) : ∃ origin, next.Backed origin := by
  cases event with
  | read event => exact ⟨origin, backed_read backed quiet performed⟩
  | save allocated =>
    simp only [perform] at performed
    split at performed
    · next idle => exact backed_save backed idle quiet performed
    · cases performed
  | restore index =>
    simp only [perform] at performed
    split at performed
    · next idle =>
        obtain ⟨outstanding, inside, isRestored⟩ := Option.bind_eq_some_iff.mp performed
        exact ⟨origin, backed_restore backed (idle_of_isIdle idle) inside quiet isRestored⟩
    · cases performed
  | discard index => exact ⟨origin, backed_discard backed performed⟩

end Steps

/-! ## Runs -/

/-- Every event of a run is quiet in the state that it meets. -/
def QuietAll (around : LexerSurroundings World Partial) :
    List Event → Session World Partial → Prop
  | [], _ => True
  | event :: events, session =>
    session.Quiet around event ∧
      ∀ next, session.perform around event = some next → QuietAll around events next

theorem backed_start (lex : LexState World Partial) :
    Backed (fun _ => ([], fun _ => none)) { lex := lex } where
  counted := counted_start lex
  reading := fun _ => rfl
  text := fun _ _ isSaved => nomatch isSaved
  current := fun _ isSaved => nomatch isSaved
  held := fun _ member => nomatch member

theorem backed_performAll {events : List Event} {session final : Session World Partial}
    {origin : Origin} (backed : session.Backed origin) (quiet : session.QuietAll around events)
    (performed : performAll around events session = some final) :
    ∃ origin, final.Backed origin := by
  induction events generalizing session origin with
  | nil =>
    cases performed
    exact ⟨origin, backed⟩
  | cons event events hypothesis =>
    obtain ⟨next, isNext, performed⟩ := Option.bind_eq_some_iff.mp performed
    obtain ⟨origin, backed⟩ := backed_perform backed quiet.1 isNext
    exact hypothesis backed (quiet.2 next isNext) performed

end Session

/-- The tokens that are read, with what the lexer says of each, and the state that is
reached. -/
def LexState.readAll (around : LexerSurroundings World Partial) :
    List ReadEvent → LexState World Partial → List LexFields × Option (LexState World Partial)
  | [], state => ([], some state)
  | event :: events, state =>
    match state.read around event with
    | none => ([], none)
    | some next =>
      let rest := readAll around events next
      (if next.control.isIdle then next.fields :: rest.1 else rest.1, rest.2)

open Session

/-- A preprocessor that knows one macro: `X` is replaced by `1` until `#undef X`. Each
character is a token. -/
def oneMacro : LexerSurroundings Bool Unit where
  parseDirective := fun state =>
    let undefines := state.line = [35, 117, 110, 100, 101, 102, 32, 88]
    { isDirective := undefines
      line := state.line
      ifStack := state.ifStack
      isCompiledIn := state.isCompiledIn
      world := if undefines then false else state.world }
  replaceMacros := fun state =>
    { line := if state.world = true ∧ state.line = [88] then [49] else state.line
      world := state.world }
  finishIncludedSource := LexState.world
  fileIndex := fun _ => 0
  collectToken := fun state _ =>
    let ch := state.line.getD state.pos 0
    .collected (state.pos + 1) { state.fields with
      currentToken := .other ch.toNat
      spelling := [ch] }
  nextReplayToken := LexState.fields

/-- A line has been read; the lines `X`, `#undef X` and `;` come next. -/
def beforeUse : LexState Bool Unit where
  control := .idle
  line := [97]
  pos := 1
  fields := { currentToken := .greatergreater }
  source := 0
  sources := fun id =>
    if id = 0 then
      some {
        reading := {
          device := .file (some [88, 10, 35, 117, 110, 100, 101, 102, 32, 88, 10, 59, 10])
          lineno := 1
          atStart := false }
        pathIndex := 0
        prev := none }
    else none
  nextSource := 1
  suppressPreprocessing := false
  ifStack := []
  isCompiledIn := true
  world := true

/-- A token that is read in a number of steps. -/
def readsOf (steps : Nat) : List ReadEvent :=
  .nextToken :: List.replicate steps .step

/-- The tokens of a number of reads, after the newest checkpoint has been restored and
from where it was saved. -/
def Session.rereads (around : LexerSurroundings Bool Unit) (reads : List ReadEvent)
    (session : Session Bool Unit) : Option (Bool × List Token × List Token) := do
  let outstanding ← session.checkpoints[0]?
  let restored ← session.restore outstanding.checkpoint
  some (session.lex.control.isIdle,
    (restored.lex.readAll around reads).1.map LexFields.currentToken,
    (outstanding.state.readAll around reads).1.map LexFields.currentToken)

end DaveCC.Frontend.Lexing
