import Mathlib.Data.List.TakeWhile
import DaveCC.Frontend.SourceReading

/-!
# Translation phases 1 and 2

The logical lines of a text: trigraphs are replaced, the text is split into physical
lines, and a physical line that ends in a backslash is joined with the next logical
line. Reading a source line by line yields these lines.
-/

namespace DaveCC.Frontend

/-- What a trigraph stands for. -/
def trigraphOf (first second third : UInt8) : Option UInt8 :=
  if first = byteOf '?' ∧ second = byteOf '?' then trigraphs.lookup third else none

/-- Phase 1. -/
def replaceTrigraphs : List UInt8 → List UInt8
  | first :: second :: third :: rest =>
    match trigraphOf first second third with
    | some replacement => replacement :: replaceTrigraphs rest
    | none => first :: replaceTrigraphs (second :: third :: rest)
  | text => text

/-- The physical lines of a text; the last one may end with the text. -/
def physicalLines : List UInt8 → List (List UInt8)
  | [] => []
  | byte :: text =>
    if byte = byteOf '\n' then [] :: physicalLines text
    else
      match physicalLines text with
      | [] => [[byte]]
      | line :: lines => (byte :: line) :: lines

/-- A line without the byte order mark at its start. -/
def dropMark (line : List UInt8) : List UInt8 :=
  if [0xef, 0xbb, 0xbf].isPrefixOf line then line.drop 3 else line

/-- The physical lines without a byte order mark at their start. -/
def withoutMark : List (List UInt8) → List (List UInt8)
  | [] => []
  | line :: lines => dropMark line :: lines

/-- A logical line: the numbers of its first and its last physical line, its text, and
whether a newline or the end of the text ends it, rather than a splice before the end of
the text. -/
structure LogicalLine where
  first : Nat
  last : Nat
  text : List UInt8
  ended : Bool
  deriving DecidableEq, Repr

/-- Phase 2, for physical lines from a number on. A splice of a line leaves the text
before the backslash. -/
def joinLines (spliced : List UInt8 → Option (List UInt8)) :
    Nat → List (List UInt8) → List LogicalLine
  | _, [] => []
  | number, line :: lines =>
    match spliced line with
    | none => ⟨number, number, line, true⟩ :: joinLines spliced (number + 1) lines
    | some front =>
      match joinLines spliced (number + 1) lines with
      | [] => [⟨number, number + 1, front, false⟩]
      | next :: rest => ⟨number, next.last, front ++ next.text, next.ended⟩ :: rest

/-- A splice before the end of the text ends a line if there is anything on it. -/
def LogicalLine.counts (line : LogicalLine) : Bool :=
  line.ended || !line.text.isEmpty

/-- A line is spliced by a backslash immediately before the newline. -/
def splicedImmediately (line : List UInt8) : Option (List UInt8) :=
  if line.getLast? = some (byteOf '\\') then some line.dropLast else none

/-- A line is spliced by a backslash with only white space after it. -/
def spliced (line : List UInt8) : Option (List UInt8) :=
  match line.reverse.dropWhile isBlank with
  | [] => none
  | byte :: front => if byte = byteOf '\\' then some front.reverse else none

/-- The lines that phases 1 and 2 make of a text, with the number of the first physical
line of each, when only a backslash immediately before the newline splices. -/
def linesAsWritten (text : List UInt8) : List (Nat × List UInt8) :=
  ((joinLines splicedImmediately 1 (physicalLines (replaceTrigraphs text))).filter
    LogicalLine.counts).map fun line => (line.first, line.text)

/-- The physical lines of a text after phase 1, without a byte order mark. -/
def translatedLines (text : List UInt8) : List (List UInt8) :=
  withoutMark (physicalLines (replaceTrigraphs text))

/-- The lines that phases 1 and 2 make of a text, with the number of the last physical
line of each, when white space may follow the backslash. -/
def logicalLines (text : List UInt8) : List (Nat × List UInt8) :=
  ((joinLines spliced 1 (translatedLines text)).filter LogicalLine.counts).map
    fun line => (line.last, line.text)

/-- Behind what has been joined so far, a splice uncovers another backslash that only
white space follows on the next physical line, or the end of the text. -/
def uncovers (joined : List UInt8) : List (List UInt8) → Bool
  | [] => (spliced joined).isSome
  | line :: lines =>
    (line.all isBlank && (spliced joined).isSome) ||
      match spliced line with
      | none => uncovers [] lines
      | some front => uncovers (joined ++ front) lines

/-- The text ends in a splice without a newline. -/
def endsInSplice (text : List UInt8) : Bool :=
  text.getLast? != some (byteOf '\n') &&
    (translatedLines text).getLast?.any fun line => (spliced line).isSome

/-- The second lines are the first, up to a NUL at the end of the last one. -/
def SameButNul (lines others : List (Nat × List UInt8)) : Prop :=
  lines = others ∨ ∃ front number last, others = front ++ [(number, last ++ [0])] ∧
    (lines = front ++ [(number, last)] ∨ last = [] ∧ lines = front)

section Splices

variable {line front : List UInt8}

theorem spliceIndex_le (length : Nat) : spliceIndex line length ≤ length := by
  induction length with
  | zero => exact Nat.le_refl 0
  | succ length ih =>
    rw [spliceIndex]
    split
    · exact Nat.le_succ_of_le ih
    · exact Nat.le_refl _

theorem take_succ_reverse {length : Nat} (inside : length < line.length) :
    (line.take (length + 1)).reverse = line.getD length 0 :: (line.take length).reverse := by
  rw [List.take_succ_eq_append_getElem inside, List.reverse_append,
    List.getD_eq_getElem?_getD, List.getElem?_eq_getElem inside, Option.getD_some]
  rfl

/-- The splice index is where the white space at the end of a line starts. -/
theorem dropWhile_take (length : Nat) (inside : length ≤ line.length) :
    (line.take length).reverse.dropWhile isBlank =
      (line.take (spliceIndex line length)).reverse := by
  induction length with
  | zero => rfl
  | succ length ih =>
    rw [spliceIndex, take_succ_reverse inside, List.dropWhile_cons]
    split
    · exact ih (Nat.le_of_succ_le inside)
    · exact (take_succ_reverse inside).symm

theorem splice_eq_spliced : splice line = spliced line := by
  have index := dropWhile_take line.length (Nat.le_refl _)
  have bound : spliceIndex line line.length ≤ line.length := spliceIndex_le line.length
  rw [List.take_length] at index
  simp only [splice, spliced, index]
  cases indexEq : spliceIndex line line.length with
  | zero =>
    simp
  | succ splice =>
    rw [indexEq] at bound
    have nonempty : 0 < line.length := Nat.lt_of_lt_of_le (Nat.succ_pos splice) bound
    rw [take_succ_reverse bound, if_pos nonempty, Nat.add_sub_cancel]
    simp

/-- Behind white space only, a line is spliced as without it. -/
theorem spliced_append_blank (joined : List UInt8) (blank : line.all isBlank = true) :
    spliced (joined ++ line) = spliced joined := by
  have dropped : line.reverse.dropWhile isBlank = [] := by
    apply List.dropWhile_eq_nil_iff.mpr
    intro byte member
    exact List.all_eq_true.mp blank byte (List.mem_reverse.mp member)
  rw [spliced, List.reverse_append, List.dropWhile_append, dropped]
  rfl

/-- A line with more than white space is spliced whatever is before it. -/
theorem spliced_append (joined : List UInt8) (dark : line.all isBlank = false) :
    spliced (joined ++ line) = (spliced line).map (joined ++ ·) := by
  rw [spliced, spliced, List.reverse_append, List.dropWhile_append]
  cases dropped : line.reverse.dropWhile isBlank with
  | nil =>
    have blank : line.all isBlank = true := by
      rw [List.all_eq_true]
      intro byte member
      exact List.dropWhile_eq_nil_iff.mp dropped byte (List.mem_reverse.mpr member)
    rw [dark] at blank
    cases blank
  | cons byte rest =>
    simp only [List.isEmpty_cons, Bool.false_eq_true, if_false, List.cons_append]
    split
    · simp
    · rfl

theorem spliced_append_of_not_uncovers {joined : List UInt8} {lines : List (List UInt8)}
    (covered : uncovers joined (line :: lines) = false) :
    spliced (joined ++ line) = (spliced line).map (joined ++ ·) := by
  rw [uncovers, Bool.or_eq_false_iff, Bool.and_eq_false_iff] at covered
  cases blank : line.all isBlank with
  | false => exact spliced_append joined blank
  | true =>
    have unspliced : spliced joined = none := by
      simpa [blank] using covered.1
    have nothing : spliced line = none := spliced_append_blank [] blank
    rw [spliced_append_blank joined blank, unspliced, nothing]
    rfl

/-- A line that ends in a byte that is neither blank nor a backslash is not spliced. -/
theorem spliced_concat {byte : UInt8} (dark : isBlank byte = false)
    (plain : byte ≠ byteOf '\\') : spliced (line ++ [byte]) = none := by
  rw [spliced, List.reverse_concat, List.dropWhile_cons_of_neg (by simp [dark])]
  exact if_neg plain

end Splices

/-! ## Phase 1 and physical lines -/

section Lines

variable {line text : List UInt8} {lines : List (List UInt8)}

theorem physicalLines_line (unbroken : byteOf '\n' ∉ line) :
    physicalLines (line ++ byteOf '\n' :: text) = line :: physicalLines text := by
  induction line with
  | nil => exact if_pos rfl
  | cons byte line ih =>
    have first : byte ≠ byteOf '\n' := fun same => unbroken (same ▸ List.mem_cons_self)
    have rest := ih fun member => unbroken (List.mem_cons_of_mem _ member)
    rw [List.cons_append, physicalLines, if_neg first, rest]

theorem physicalLines_unended (unbroken : byteOf '\n' ∉ line) (nonempty : line ≠ []) :
    physicalLines line = [line] := by
  induction line with
  | nil => exact absurd rfl nonempty
  | cons byte line ih =>
    have first : byte ≠ byteOf '\n' := fun same => unbroken (same ▸ List.mem_cons_self)
    rw [physicalLines, if_neg first]
    cases line with
    | nil => rfl
    | cons second line =>
      rw [ih (fun member => unbroken (List.mem_cons_of_mem _ member)) (by simp)]

variable {first second third : UInt8}

theorem trigraphOf_newline {replacement : UInt8}
    (isTrigraph : trigraphOf first second third = some replacement) :
    first ≠ byteOf '\n' ∧ second ≠ byteOf '\n' ∧ third ≠ byteOf '\n' ∧
      replacement ≠ byteOf '\n' := by
  rw [trigraphOf] at isTrigraph
  split at isTrigraph
  · next marks =>
      have replaced : trigraphs.all (fun entry =>
          entry.1 ≠ byteOf '\n' ∧ entry.2 ≠ byteOf '\n') = true := by decide
      obtain ⟨before, after, entries, -⟩ := List.lookup_eq_some_iff.mp isTrigraph
      have plain := of_decide_eq_true
        (List.all_eq_true.mp replaced (third, replacement) (by rw [entries]; simp))
      rw [marks.1, marks.2]
      exact ⟨by decide, by decide, plain.1, plain.2⟩
  · cases isTrigraph

variable {byte : UInt8}

/-- The first line of a text, if it has one, with a byte before it. -/
theorem physicalLines_cons (first : byte ≠ byteOf '\n') :
    physicalLines (byte :: text) =
      (byte :: (physicalLines text).headD []) :: (physicalLines text).tail := by
  rw [physicalLines, if_neg first]
  cases physicalLines text <;> rfl

theorem replaceTrigraphs_short (short : line.length < 3) : replaceTrigraphs line = line := by
  match line with
  | [] => rfl
  | [_] => rfl
  | [_, _] => rfl
  | _ :: _ :: _ :: _ => simp at short; omega

theorem length_le_of_mem_physicalLines (member : line ∈ physicalLines text) :
    line.length ≤ text.length := by
  induction text generalizing line with
  | nil => cases member
  | cons byte text ih =>
    by_cases first : byte = byteOf '\n'
    · rw [physicalLines, if_pos first] at member
      rcases List.mem_cons.mp member with rfl | later
      · exact Nat.zero_le _
      · exact Nat.le_succ_of_le (ih later)
    · rw [physicalLines_cons first] at member
      rcases List.mem_cons.mp member with rfl | later
      · apply Nat.succ_le_succ
        cases lines : physicalLines text with
        | nil => exact Nat.zero_le _
        | cons head tail => exact ih (by rw [lines]; exact List.mem_cons_self)
      · exact Nat.le_succ_of_le (ih (List.mem_of_mem_tail later))

/-- A byte that starts no trigraph of the text starts none of its line. -/
theorem replaceTrigraphs_first (plain : trigraphOf first second third = none) :
    replaceTrigraphs (first :: (physicalLines (second :: third :: text)).headD []) =
      first :: replaceTrigraphs ((physicalLines (second :: third :: text)).headD []) := by
  by_cases secondEnds : second = byteOf '\n'
  · rw [physicalLines, if_pos secondEnds]
    rfl
  · rw [physicalLines_cons secondEnds]
    by_cases thirdEnds : third = byteOf '\n'
    · rw [physicalLines, if_pos thirdEnds]
      rfl
    · rw [physicalLines_cons thirdEnds]
      simp [replaceTrigraphs, plain]

/-- Phase 1 works on each line of the text apart. -/
theorem physicalLines_replaceTrigraphs (text : List UInt8) :
    physicalLines (replaceTrigraphs text) = (physicalLines text).map replaceTrigraphs := by
  have headD_map (lines : List (List UInt8)) :
      (lines.map replaceTrigraphs).headD [] = replaceTrigraphs (lines.headD []) := by
    cases lines <;> rfl
  induction text using replaceTrigraphs.induct with
  | case1 first second third rest replacement isTrigraph ih =>
    obtain ⟨firstStays, secondStays, thirdStays, replaced⟩ := trigraphOf_newline isTrigraph
    rw [physicalLines_cons firstStays, physicalLines_cons secondStays,
      physicalLines_cons thirdStays]
    simp only [replaceTrigraphs, isTrigraph, List.headD_cons, List.tail_cons, List.map_cons]
    rw [physicalLines_cons replaced, ih, headD_map, List.map_tail]
  | case2 first second third rest plain ih =>
    rw [replaceTrigraphs, plain]
    by_cases ends : first = byteOf '\n'
    · rw [physicalLines, if_pos ends, physicalLines, if_pos ends, ih]
      rfl
    · rw [physicalLines_cons ends, physicalLines_cons ends, ih, headD_map, List.map_cons,
        replaceTrigraphs_first plain, List.map_tail]
  | case3 text short =>
    have length : text.length < 3 := by
      match text with
      | [] | [_] | [_, _] => simp
      | first :: second :: third :: rest => exact absurd rfl (short first second third rest)
    have same : ∀ line ∈ physicalLines text, replaceTrigraphs line = line := fun line member =>
      replaceTrigraphs_short (Nat.lt_of_le_of_lt (length_le_of_mem_physicalLines member) length)
    rw [replaceTrigraphs_short length, List.map_congr_left same, List.map_id']

theorem replaceTrigraphs_cons (plain : byte ≠ byteOf '?') :
    replaceTrigraphs (byte :: line) = byte :: replaceTrigraphs line := by
  match line with
  | [] => rfl
  | [_] => rfl
  | second :: third :: rest =>
    have starts : trigraphOf byte second third = none := if_neg fun marks => plain marks.1
    rw [replaceTrigraphs, starts]

/-- A byte that is neither a question mark nor what a trigraph stands for comes from the
text. -/
theorem exists_of_replaceTrigraphs {rest : List UInt8} (plain : byte ∉ trigraphs.map Prod.snd)
    (replaced : replaceTrigraphs line = byte :: rest) :
    ∃ after, line = byte :: after ∧ replaceTrigraphs after = rest := by
  match line with
  | [] => cases replaced
  | [_] => cases replaced; exact ⟨[], rfl, rfl⟩
  | [_, second] => cases replaced; exact ⟨[second], rfl, rfl⟩
  | first :: second :: third :: after =>
    rw [replaceTrigraphs] at replaced
    split at replaced
    · next replacement isTrigraph =>
        cases replaced
        rw [trigraphOf] at isTrigraph
        split at isTrigraph
        · obtain ⟨before, later, entries, -⟩ := List.lookup_eq_some_iff.mp isTrigraph
          have member : (third, byte) ∈ trigraphs := by rw [entries]; simp
          exact absurd (List.mem_map.mpr ⟨_, member, rfl⟩) plain
        · cases isTrigraph
    · cases replaced
      exact ⟨second :: third :: after, rfl, rfl⟩

theorem dropMark_replaceTrigraphs :
    dropMark (replaceTrigraphs line) = replaceTrigraphs (dropMark line) := by
  have kept (tail : List UInt8) : replaceTrigraphs ([0xef, 0xbb, 0xbf] ++ tail) =
      [0xef, 0xbb, 0xbf] ++ replaceTrigraphs tail := by
    change replaceTrigraphs (0xef :: 0xbb :: 0xbf :: tail) = _
    rw [replaceTrigraphs_cons (by decide), replaceTrigraphs_cons (by decide),
      replaceTrigraphs_cons (by decide)]
    rfl
  by_cases marked : [0xef, 0xbb, 0xbf] <+: line
  · obtain ⟨tail, rfl⟩ := marked
    rw [kept, dropMark, if_pos (by simp), dropMark, if_pos (by simp)]
    rfl
  · have stays : ¬[0xef, 0xbb, 0xbf] <+: replaceTrigraphs line := by
      rintro ⟨tail, starts⟩
      obtain ⟨second, rfl, atSecond⟩ :=
        exists_of_replaceTrigraphs (by decide) (Eq.symm starts)
      obtain ⟨third, rfl, atThird⟩ := exists_of_replaceTrigraphs (by decide) atSecond
      obtain ⟨after, rfl, -⟩ := exists_of_replaceTrigraphs (by decide) atThird
      exact marked ⟨after, rfl⟩
    rw [dropMark, if_neg (by simpa using stays), dropMark, if_neg (by simpa using marked)]

/-- The physical lines of what is left of a text, after phase 1, when it is at its start
or later. -/
def linesFrom (atStart : Bool) (text : List UInt8) : List (List UInt8) :=
  let lines := (physicalLines text).map replaceTrigraphs
  if atStart then withoutMark lines else lines

theorem linesFrom_start : linesFrom true text = translatedLines text := by
  rw [translatedLines, physicalLines_replaceTrigraphs]
  rfl

theorem linesFrom_eq {atStart : Bool} (isLines : physicalLines text = line :: lines) :
    linesFrom atStart text =
      replaceTrigraphs (if atStart then dropMark line else line) ::
        lines.map replaceTrigraphs := by
  rw [linesFrom, isLines]
  cases atStart with
  | false => rfl
  | true => exact congrArg (· :: _) dropMark_replaceTrigraphs

end Lines

end DaveCC.Frontend
