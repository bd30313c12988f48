import DaveCC.Frontend.LexCheckpoint
import Mathlib.Data.List.Perm.Basic

/-!
# References to saved lines

A saved line has one reference for each checkpoint that holds it and one while it is the
line of the lexer, and it is freed with the last of them. This holds in every run.
-/

namespace DaveCC.Frontend.Lexing

/-- The count of a line with a number of holders; without a holder there is no line. -/
def refsFor (holders : Nat) : Option Nat :=
  if holders = 0 then none else some holders

section Lines

variable (id other : Nat) (lines : Nat → Option SavedLine)

theorem refs_releaseSavedLine :
    (releaseSavedLine (some id) lines other).map SavedLine.refs =
      if id = other then ((lines other).map SavedLine.refs).bind fun refs => refsFor (refs - 1)
      else (lines other).map SavedLine.refs := by
  rw [releaseSavedLine]
  simp only [Option.some.injEq]
  split
  · cases lines other with
    | none => rfl
    | some saved =>
      simp only [Option.bind_some, Option.map_some, refsFor]
      split <;> rfl
  · rfl

theorem refs_retainSavedLine :
    (retainSavedLine id lines other).map SavedLine.refs =
      if id = other then ((lines other).map SavedLine.refs).map Nat.succ
      else (lines other).map SavedLine.refs := by
  rw [retainSavedLine]
  split
  · cases lines other <;> rfl
  · rfl

theorem refs_keepText (line : Line) :
    (keepText id line lines other).map SavedLine.refs = (lines other).map SavedLine.refs := by
  rw [keepText]
  split
  · cases lines other with
    | none => rfl
    | some saved =>
      simp only [Option.map_some]
      split <;> rfl
  · rfl

end Lines

namespace Session

variable {World Partial : Type} {around : LexerSurroundings World Partial}
  {session next : Session World Partial}

/-- The number of outstanding checkpoints that hold a line. -/
def checkpointsOf (id : Nat) (session : Session World Partial) : Nat :=
  session.checkpoints.countP fun outstanding => outstanding.checkpoint.savedLine = some id

/-- The checkpoints that hold a line, and the lexer while the line is its own. -/
def holders (id : Nat) (session : Session World Partial) : Nat :=
  session.checkpointsOf id + if session.savedLine = some id then 1 else 0

/-- Each reference is counted, and lines are numbered in the order they are saved. -/
structure Counted (session : Session World Partial) : Prop where
  refs : ∀ id, (session.savedLines id).map SavedLine.refs = refsFor (session.holders id)
  fresh : ∀ id, session.nextSavedLine ≤ id → session.holders id = 0

theorem counted_start (lex : LexState World Partial) : Counted { lex := lex } where
  refs := fun _ => rfl
  fresh := fun _ _ => rfl

theorem holders_pos {id : Nat} (isSaved : session.savedLine = some id) :
    session.holders id ≠ 0 := by
  rw [holders, if_pos isSaved]
  exact Nat.succ_ne_zero _

theorem holders_willChangeLine (id : Nat) :
    session.willChangeLine.holders id =
      session.holders id - if session.savedLine = some id then 1 else 0 := by
  rw [willChangeLine]
  cases isSaved : session.savedLine with
  | none => simp only [holders, isSaved, checkpointsOf, reduceCtorEq, if_false, Nat.sub_zero]
  | some current =>
    simp [holders, checkpointsOf, isSaved]

theorem counted_willChangeLine (counted : session.Counted) : session.willChangeLine.Counted where
  refs := by
    intro id
    rw [holders_willChangeLine]
    cases isSaved : session.savedLine with
    | none => simp only [willChangeLine, isSaved, counted.refs, reduceCtorEq, if_false, Nat.sub_zero]
    | some current =>
      simp only [willChangeLine, isSaved, refs_releaseSavedLine, refs_keepText, counted.refs,
        Option.some.injEq]
      split
      · next same =>
          rw [refsFor, if_neg (holders_pos (same ▸ isSaved))]
          rfl
      · rfl
  fresh := by
    intro id isFresh
    have number : session.willChangeLine.nextSavedLine = session.nextSavedLine := by
      rw [willChangeLine]
      split <;> rfl
    rw [holders_willChangeLine, counted.fresh id (number ▸ isFresh), Nat.zero_sub]

theorem counted_setLex (counted : session.Counted) (lex : LexState World Partial) :
    Counted { session with lex := lex } :=
  ⟨counted.refs, counted.fresh⟩

theorem savedLine_lt_next (counted : session.Counted) {id : Nat}
    (isSaved : session.savedLine = some id) : id < session.nextSavedLine := by
  apply Nat.lt_of_not_le
  intro isFresh
  have none := counted.fresh id isFresh
  exact absurd none (holders_pos isSaved)

theorem shareLine_some {id : Nat} (isSaved : session.savedLine = some id) (allocated : Bool) :
    session.shareLine allocated = session := by
  simp only [shareLine, isSaved]

theorem shareLine_failed : session.shareLine false = session := by
  cases isSaved : session.savedLine <;> simp only [shareLine, isSaved]

/-- The session once its line has been saved as a new one. -/
def withNewLine (session : Session World Partial) : Session World Partial :=
  { session with
    savedLine := some session.nextSavedLine
    nextSavedLine := session.nextSavedLine + 1
    savedLines := fun id =>
      if id = session.nextSavedLine then some { refs := 1, text := none }
      else session.savedLines id }

theorem shareLine_none (unsaved : session.savedLine = none) :
    session.shareLine true = session.withNewLine := by
  simp only [shareLine, unsaved]
  rfl

theorem holders_withNewLine (unsaved : session.savedLine = none) (id : Nat) :
    session.withNewLine.holders id =
      session.holders id + if session.nextSavedLine = id then 1 else 0 := by
  simp [holders, checkpointsOf, withNewLine, unsaved]

theorem counted_withNewLine (counted : session.Counted) (unsaved : session.savedLine = none) :
    session.withNewLine.Counted where
  refs := by
    intro id
    rw [holders_withNewLine unsaved]
    simp only [withNewLine]
    by_cases isNew : id = session.nextSavedLine
    · rw [if_pos isNew, if_pos isNew.symm, isNew, counted.fresh _ (Nat.le_refl _)]
      rfl
    · rw [if_neg isNew, if_neg (Ne.symm isNew)]
      exact counted.refs id
  fresh := by
    intro id isFresh
    rw [holders_withNewLine unsaved, counted.fresh id (Nat.le_of_succ_le isFresh),
      if_neg (Nat.ne_of_lt (Nat.lt_of_succ_le isFresh))]

theorem map_succ_refsFor {count : Nat} (positive : count ≠ 0) :
    (refsFor count).map Nat.succ = refsFor (count + 1) := by
  rw [refsFor, if_neg positive]
  rfl

variable {outstanding : Outstanding World Partial}

theorem holders_hold (current : outstanding.checkpoint.savedLine = session.savedLine) (id : Nat) :
    (session.hold outstanding).holders id =
      session.holders id + if session.savedLine = some id then 1 else 0 := by
  simp only [holders, checkpointsOf, hold, List.countP_cons, current, decide_eq_true_eq]
  exact Nat.add_right_comm _ _ _

theorem counted_hold (counted : session.Counted)
    (current : outstanding.checkpoint.savedLine = session.savedLine) :
    (session.hold outstanding).Counted where
  refs := by
    intro id
    rw [holders_hold current]
    cases isSaved : session.savedLine with
    | none => simp only [hold, isSaved, reduceCtorEq, if_false, Nat.add_zero, counted.refs]
    | some held =>
      simp only [hold, isSaved, refs_retainSavedLine, counted.refs, Option.some.injEq]
      split
      · next same => exact map_succ_refsFor (holders_pos (same ▸ isSaved))
      · rfl
  fresh := by
    intro id isFresh
    have notSaved : session.savedLine ≠ some id := fun isSaved =>
      Nat.not_le_of_lt (savedLine_lt_next counted isSaved) isFresh
    rw [holders_hold current, counted.fresh id isFresh, if_neg notSaved]

theorem savedLine_willChangeLine : session.willChangeLine.savedLine = none := by
  cases isSaved : session.savedLine <;> simp only [willChangeLine, isSaved]

/-- A saved line becomes the line of the lexer again. -/
def adopt (id : Nat) (session : Session World Partial) : Session World Partial :=
  { session with savedLine := some id, savedLines := retainSavedLine id session.savedLines }

theorem holders_adopt {id : Nat} (unsaved : session.savedLine = none) (other : Nat) :
    (session.adopt id).holders other = session.holders other + if id = other then 1 else 0 := by
  simp [holders, checkpointsOf, adopt, unsaved]

variable {saved : SavedLine}

theorem holders_of_savedLine (counted : session.Counted) {id : Nat}
    (present : session.savedLines id = some saved) : session.holders id ≠ 0 := by
  intro unheld
  have none := counted.refs id
  rw [present, unheld] at none
  cases none

theorem counted_adopt (counted : session.Counted) {id : Nat} (unsaved : session.savedLine = none)
    (present : session.savedLines id = some saved) :
    (session.adopt id).Counted where
  refs := by
    intro other
    rw [holders_adopt unsaved]
    simp only [adopt, refs_retainSavedLine, counted.refs]
    split
    · next same =>
        exact map_succ_refsFor (same ▸ holders_of_savedLine counted present)
    · rfl
  fresh := by
    intro other isFresh
    have differs : id ≠ other := fun same =>
      holders_of_savedLine counted present (counted.fresh id (same ▸ isFresh))
    rw [holders_adopt unsaved, counted.fresh other isFresh, if_neg differs]

variable {checkpoint : LexCheckpoint}

theorem counted_restoreLine (counted : session.Counted)
    (isRestored : restoreLine checkpoint session = some next) : next.Counted := by
  have changed := counted_willChangeLine counted
  cases isHeld : checkpoint.savedLine with
  | none =>
    simp only [restoreLine, isHeld] at isRestored
    cases isRestored
    exact counted_setLex changed _
  | some id =>
    simp only [restoreLine, isHeld] at isRestored
    split at isRestored
    · cases isRestored
      exact counted
    · cases present : session.willChangeLine.savedLines id with
      | none =>
        rw [present] at isRestored
        cases isRestored
      | some saved =>
        cases isText : saved.text with
        | none =>
          rw [present, Option.bind_eq_bind, Option.bind_some, isText] at isRestored
          cases isRestored
        | some text =>
          rw [present, Option.bind_eq_bind, Option.bind_some, isText] at isRestored
          cases isRestored
          exact counted_setLex (counted_adopt changed savedLine_willChangeLine present) _

theorem counted_restore (counted : session.Counted)
    (isRestored : session.restore checkpoint = some next) : next.Counted := by
  obtain ⟨lex, -, isRestored⟩ := Option.bind_eq_some_iff.mp isRestored
  obtain ⟨lined, isLined, isRestored⟩ := Option.bind_eq_some_iff.mp isRestored
  cases isRestored
  exact counted_setLex (counted_restoreLine (counted_setLex counted lex) isLined) _

variable {index : Nat}

theorem checkpointsOf_eraseIdx (inside : session.checkpoints[index]? = some outstanding)
    (id : Nat) :
    session.checkpointsOf id =
      checkpointsOf id { session with checkpoints := session.checkpoints.eraseIdx index } +
        if outstanding.checkpoint.savedLine = some id then 1 else 0 := by
  obtain ⟨bound, isAt⟩ := List.getElem?_eq_some_iff.mp inside
  have permuted := List.getElem_cons_eraseIdx_perm bound
  rw [checkpointsOf, ← permuted.countP_eq, List.countP_cons, isAt]
  simp [checkpointsOf]

theorem counted_discard (counted : session.Counted)
    (isDiscarded : session.discard index = some next) : next.Counted := by
  obtain ⟨outstanding, inside, isDiscarded⟩ := Option.bind_eq_some_iff.mp isDiscarded
  cases isDiscarded
  have fewer (id : Nat) : session.holders id =
      holders id { session with checkpoints := session.checkpoints.eraseIdx index } +
        if outstanding.checkpoint.savedLine = some id then 1 else 0 := by
    rw [holders, checkpointsOf_eraseIdx inside id]
    exact Nat.add_right_comm _ _ _
  constructor
  · intro id
    have refs := counted.refs id
    rw [fewer] at refs
    cases isHeld : outstanding.checkpoint.savedLine with
    | none =>
      simp only [isHeld, reduceCtorEq, if_false, Nat.add_zero] at refs
      exact refs
    | some held =>
      simp only [isHeld, Option.some.injEq] at refs
      simp only [refs_releaseSavedLine, refs]
      split
      · simp only [refsFor, Nat.add_one_ne_zero, if_false, Option.bind_some, Nat.add_sub_cancel]
        rfl
      · rfl
  · intro id isFresh
    have none := counted.fresh id isFresh
    rw [fewer] at none
    exact (Nat.add_eq_zero_iff.mp none).1

end Session

end DaveCC.Frontend.Lexing
