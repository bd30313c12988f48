import Mathlib.Data.List.Forall2
import DaveCC.Frontend.ConditionalDirectives

/-!
# Conditional sections

What the language says of conditional directives: a section is a row of groups, and a
group is selected when the enclosing sections are active, no earlier group of the
section was selected and its condition holds. The stack of flags follows the sections
until a directive meets a flag that has been used up.
-/

namespace DaveCC.Frontend

open Preprocessor

/-- A section: whether the sections around it were active, and which of its groups were
selected, the current one first. -/
structure Section where
  enclosed : Bool
  groups : List Bool
  deriving DecidableEq, Repr

namespace Section

/-- The current group is selected. -/
def current (sec : Section) : Bool := sec.groups.headD false

/-- Some group was selected. -/
def chosen (sec : Section) : Bool := sec.groups.any id

/-- A further group could be selected. -/
def open? (sec : Section) : Bool := sec.enclosed && !sec.chosen

/-- The section with a further group. -/
def next (value : Bool) (sec : Section) : Section :=
  { sec with groups := (sec.open? && value) :: sec.groups }

end Section

/-- The current group of every section is selected. -/
def active (sections : List Section) : Bool :=
  sections.all Section.current

/-- A new section whose first group has a condition. -/
def openSection (value : Bool) (sections : List Section) : List Section :=
  { enclosed := active sections, groups := [active sections && value] } :: sections

/-- A further group of the innermost section. -/
def nextGroup (value : Bool) : List Section → List Section
  | [] => []
  | sec :: sections => sec.next value :: sections

/-- The name of a directive in the language: an identifier. -/
def directiveName (line : List Char) : List Char :=
  line.takeWhile fun ch => ch.isAlphanum || ch = '_'

/-- The conditional directive on a line, with the rest of the line. -/
def conditionalOf : SourceLine → Option (ConditionalCommand × List Char)
  | .text _ => none
  | .directive line =>
    match findCommand (directiveName line) with
    | some (.inl command) => some (command, line.drop (directiveName line).length)
    | _ => none

section Language

variable {World : Type} (around : Surroundings World)

/-- The value of the condition of a directive in a state of the world. -/
def conditionValue (command : ConditionalCommand) (rest : List Char) (world : World) : Bool :=
  let defined (name : String) : Bool :=
    around.macroNameIsDefined (around.readMacroName rest) (around.expectMacroName name rest world)
  match command with
  | .if | .elif => (around.evaluateExpression rest world).1
  | .ifdef => defined "ifdef"
  | .ifndef => !defined "ifndef"
  | .elifdef => defined "elifdef"
  | .elifndef => !defined "elifndef"
  | .else | .endif => true

/-- The sections after a line. Before `#elifdef` is in the language, it is no conditional
directive. -/
def follow (line : SourceLine) (world : World) (sections : List Section) : List Section :=
  match conditionalOf line with
  | none => sections
  | some (command, rest) =>
    let value := conditionValue around command rest world
    match command with
    | .if | .ifdef | .ifndef => openSection value sections
    | .elif | .else => nextGroup value sections
    | .elifdef | .elifndef =>
      if around.supportsElifdef then nextGroup value sections else sections
    | .endif => sections.tail

/-- The line is one of the `#elif` directives of the language. -/
def isElif (line : SourceLine) : Bool :=
  match conditionalOf line with
  | some (.elif, _) => true
  | some (.elifdef, _) | some (.elifndef, _) => around.supportsElifdef
  | _ => false

/-- After a line, text is skipped when the current group of some section is not selected,
the stack is as deep as there are open sections, and at most one group of each has been
selected. An `#elif` whose group cannot be selected has not had its condition evaluated,
nor any other effect. -/
structure FollowsLanguage (p : Preprocessor World) (sections : List Section)
    (line : SourceLine) : Prop where
  skipping : (p.parseLine around line).isCompiledIn = active (follow around line p.world sections)
  depth : (p.parseLine around line).ifStack.length = (follow around line p.world sections).length
  once : ∀ sec ∈ follow around line p.world sections, sec.groups.count true ≤ 1
  elif : isElif around line = true → ∀ sec ∈ sections.head?, sec.open? = false →
    (p.parseLine around line).evaluated = false ∧ (p.parseLine around line).world = p.world

/-- The line is read as the language reads it. -/
def ReadsName : SourceLine → Prop
  | .text _ => True
  | .directive line => directiveName line = readCommandName line

/-- A directive meets a flag that it can rely on: `NULL` on top of the stack means that
the section has had no selected group, and for `#elif` that the group could be selected.
A line whose name runs on past the name of a directive is ignored, which does no harm
when that neither opens nor closes a section and text is skipped as before. -/
def MeetsFlag (p : Preprocessor World) (sections : List Section) (line : SourceLine) : Prop :=
  (ReadsName line ∧ ∀ entry ∈ p.ifStack.head?, ∀ sec ∈ sections.head?, entry = .null →
    (isElif around line = true → sec.open? = true) ∧
    (∀ rest, conditionalOf line = some (.else, rest) → sec.enclosed = true → sec.chosen = false)) ∨
  (¬ReadsName line ∧
    (follow around line p.world sections).length = sections.length ∧
      active (follow around line p.world sections) = active sections)

/-- The property holds at every line of a run, in the states that it and the sections are
in there. -/
def AtEveryLine (property : Preprocessor World → List Section → SourceLine → Prop) :
    List SourceLine → Preprocessor World → List Section → Prop
  | [], _, _ => True
  | line :: lines, p, sections =>
    property p sections line ∧
      AtEveryLine property lines (p.parseLine around line) (follow around line p.world sections)

end Language

/-- Every flag of the stack is set. -/
def allFlags (stack : List IfEntry) : Bool :=
  stack.all fun entry => entry != .null && entry != .minusOne

/-- A section that could have selected groups has a flag for its current one, and `NULL`
as long as it has selected none. -/
def Flags (entry : IfEntry) (sec : Section) : Prop :=
  sec.enclosed = true → (entry = .flag ↔ sec.current = true) ∧ (sec.chosen = false → entry = .null)

/-- What the sections remember of those around them. -/
def Nested : List Section → Prop
  | [] => True
  | sec :: sections => sec.enclosed = active sections ∧ Nested sections

/-- The stack and the skipping state agree with the sections. -/
structure Agrees (stack : List IfEntry) (compiledIn : Bool) (sections : List Section) : Prop where
  flags : List.Forall₂ Flags stack sections
  compiledIn : compiledIn = allFlags stack
  nested : Nested sections
  once : ∀ sec ∈ sections, sec.groups.count true ≤ 1

variable {World : Type} {around : Surroundings World} {p : Preprocessor World}
  {stack : List IfEntry} {compiledIn value : Bool} {sections : List Section} {entry : IfEntry}
  {sec : Section} {line : SourceLine} {rest : List Char}

theorem allFlags_cons : allFlags (entry :: stack) = (decide (entry = .flag) && allFlags stack) := by
  cases entry <;> rfl

theorem active_cons : active (sec :: sections) = (sec.current && active sections) :=
  rfl

theorem allFlags_eq_active (flags : List.Forall₂ Flags stack sections)
    (nested : Nested sections) : allFlags stack = active sections := by
  induction flags with
  | nil => rfl
  | @cons entry sec stack sections flag flags ih =>
    have rest := ih nested.2
    rw [allFlags_cons, active_cons, rest]
    cases enclosing : active sections with
    | false => rw [Bool.and_false, Bool.and_false]
    | true =>
      have set := (flag (nested.1.trans enclosing)).1
      cases current : sec.current with
      | false => simp [mt set.mp, current]
      | true => simp [set.mpr current]

theorem Agrees.compiledIn_eq (agrees : Agrees stack compiledIn sections) :
    compiledIn = active sections :=
  agrees.compiledIn.trans (allFlags_eq_active agrees.flags agrees.nested)

theorem Agrees.length (agrees : Agrees stack compiledIn sections) :
    stack.length = sections.length :=
  agrees.flags.length_eq

/-- A section is opened. -/
theorem Agrees.open (agrees : Agrees stack compiledIn sections)
    (entryEq : active sections = true → entry = Preprocessor.entryOf value) :
    Agrees (entry :: stack) (allFlags (entry :: stack)) (openSection value sections) where
  flags := by
    refine .cons ?_ agrees.flags
    intro enclosed
    cases value <;> simp_all [Preprocessor.entryOf, Section.current, Section.chosen]
  compiledIn := rfl
  nested := ⟨rfl, agrees.nested⟩
  once := by
    intro sec member
    rcases List.mem_cons.mp member with rfl | old
    · exact List.count_le_length
    · exact agrees.once sec old

theorem count_of_not_chosen (unchosen : sec.chosen = false) : sec.groups.count true = 0 := by
  rw [List.count_eq_zero]
  intro member
  rw [Section.chosen, List.any_eq_false] at unchosen
  exact unchosen true member rfl

variable {newEntry : IfEntry}

/-- A section has a further group. -/
theorem Agrees.next (agrees : Agrees (entry :: stack) compiledIn (sec :: sections))
    (flag : Flags newEntry (sec.next value)) :
    Agrees (newEntry :: stack) (allFlags (newEntry :: stack))
      (nextGroup value (sec :: sections)) where
  flags := .cons flag (List.forall₂_cons.mp agrees.flags).2
  compiledIn := rfl
  nested := agrees.nested
  once := by
    intro other member
    rcases List.mem_cons.mp member with rfl | old
    · rw [Section.next, List.count_cons]
      cases further : sec.open? with
      | false => simpa using agrees.once sec List.mem_cons_self
      | true =>
        have unchosen : sec.chosen = false := by
          rw [Section.open?, Bool.and_eq_true, Bool.not_eq_true'] at further
          exact further.2
        rw [count_of_not_chosen unchosen]
        split <;> decide
    · exact agrees.once other (List.mem_cons_of_mem _ old)

theorem Agrees.close (agrees : Agrees (entry :: stack) compiledIn (sec :: sections)) :
    Agrees stack (allFlags stack) sections where
  flags := (List.forall₂_cons.mp agrees.flags).2
  compiledIn := rfl
  nested := agrees.nested.2
  once := fun other member => agrees.once other (List.mem_cons_of_mem _ member)

/-- A section without a selected group selects its next one. -/
theorem flags_next (unchosen : sec.enclosed = true → sec.chosen = false) :
    Flags (Preprocessor.entryOf value) (sec.next value) := by
  intro enclosed
  have enclosed : sec.enclosed = true := enclosed
  have unchosen := unchosen enclosed
  have current : (sec.next value).current = value := by
    simp [Section.next, Section.current, Section.open?, enclosed, unchosen]
  have chosen : (sec.next value).chosen = value := by
    rw [Section.chosen] at unchosen
    simp [Section.next, Section.chosen, Section.open?, enclosed, unchosen]
  rw [current, chosen]
  cases value <;> simp [Preprocessor.entryOf]

/-- A section with a selected group selects no other. -/
theorem flags_exhausted (flag : Flags entry sec) (used : entry ≠ .null) (unset : newEntry ≠ .flag) :
    Flags newEntry (sec.next value) := by
  intro enclosed
  have chosen : sec.chosen = true := by
    cases chosen : sec.chosen with
    | true => rfl
    | false => exact absurd ((flag enclosed).2 chosen) used
  have further : sec.open? = false := by
    rw [Section.open?, chosen, Bool.not_true, Bool.and_false]
  have current : (sec.next value).current = false := by
    simp [Section.next, Section.current, further]
  have stays : (sec.next value).chosen = true := by
    rw [Section.chosen] at chosen
    simp [Section.next, Section.chosen, chosen]
  rw [current, stays]
  simp [unset]

/-! ## The handlers -/

section Handlers

theorem ifStack_warnIf (condition : Bool) (text : String) :
    (p.warnIf around condition text).ifStack = p.ifStack := by
  cases condition <;> rfl

theorem isCompiledIn_updateState : p.updateState.isCompiledIn = allFlags p.updateState.ifStack :=
  rfl

/-- A state whose flags have just been read off a stack agrees with the sections that
the stack agrees with. -/
theorem Agrees.updated (agrees : Agrees stack (allFlags stack) sections)
    (same : p.ifStack = stack) :
    Agrees p.updateState.ifStack p.updateState.isCompiledIn sections := by
  have stackEq : p.updateState.ifStack = stack := same
  rw [isCompiledIn_updateState, stackEq]
  exact agrees

section

variable (agrees : Agrees p.ifStack p.isCompiledIn sections)

include agrees

theorem agrees_runIf :
    Agrees (p.runIf around rest).ifStack (p.runIf around rest).isCompiledIn
      (openSection (conditionValue around .if rest p.world) sections) := by
  cases compiledIn : p.isCompiledIn with
  | false =>
    have skips : p.runIf around rest = p.push .null := by
      simp only [Preprocessor.runIf, compiledIn, Bool.not_false, if_true]
    have inactive : active sections = false := by
      rw [← agrees.compiledIn_eq, compiledIn]
    have opened : Agrees (.null :: p.ifStack) (allFlags (.null :: p.ifStack))
        (openSection (conditionValue around .if rest p.world) sections) :=
      agrees.open (by simp [inactive])
    rw [skips]
    have flagsEq : (p.push .null).isCompiledIn = allFlags (.null :: p.ifStack) := by
      exact compiledIn
    rw [flagsEq]
    exact opened
  | true =>
    have evaluates : p.runIf around rest =
        ((p.evaluate around rest).2.push
          (Preprocessor.entryOf (p.evaluate around rest).1)).updateState := by
      simp only [Preprocessor.runIf, compiledIn, Bool.not_true, Bool.false_eq_true, if_false]
    rw [evaluates]
    exact (agrees.open fun _ => rfl).updated rfl

theorem agrees_runIfdef :
    Agrees (p.runIfdef around rest).ifStack (p.runIfdef around rest).isCompiledIn
      (openSection (conditionValue around .ifdef rest p.world) sections) :=
  (agrees.open fun _ => rfl).updated (ifStack_warnIf _ _)

theorem agrees_runIfndef :
    Agrees (p.runIfndef around rest).ifStack (p.runIfndef around rest).isCompiledIn
      (openSection (conditionValue around .ifndef rest p.world) sections) :=
  (agrees.open fun _ => rfl).updated (ifStack_warnIf _ _)

theorem agrees_runEndif :
    Agrees (p.runEndif around rest).ifStack (p.runEndif around rest).isCompiledIn
      sections.tail := by
  rw [Preprocessor.runEndif]
  split
  · next empty =>
      rw [empty] at agrees
      have none : sections = [] := List.length_eq_zero_iff.mp agrees.length.symm
      subst none
      exact (show Agrees p.ifStack p.isCompiledIn [] from empty ▸ agrees)
  · next entry stack stackEq =>
      rw [stackEq] at agrees
      cases sections with
      | nil => cases agrees.length
      | cons sec sections => exact agrees.close.updated (ifStack_warnIf _ _)

end

theorem exists_section (agrees : Agrees (entry :: stack) compiledIn sections) :
    ∃ sec rest, sections = sec :: rest := by
  cases sections with
  | nil => cases agrees.length
  | cons sec rest => exact ⟨sec, rest, rfl⟩

theorem agrees_of_nil (agrees : Agrees p.ifStack p.isCompiledIn sections)
    (empty : p.ifStack = []) : sections = [] := by
  have length := agrees.length
  rw [empty] at length
  exact List.length_eq_zero_iff.mp length.symm

theorem agrees_runElse (agrees : Agrees p.ifStack p.isCompiledIn sections)
    (unused : ∀ entry ∈ p.ifStack.head?, ∀ sec ∈ sections.head?, entry = .null →
      sec.enclosed = true → sec.chosen = false) :
    Agrees (p.runElse around rest).ifStack (p.runElse around rest).isCompiledIn
      (nextGroup true sections) := by
  rw [Preprocessor.runElse]
  split
  · next empty =>
      have none := agrees_of_nil agrees empty
      subst none
      exact agrees
  · next entry stack stackEq =>
      rw [stackEq] at agrees unused
      obtain ⟨sec, sections, rfl⟩ := exists_section agrees
      have flag := (List.forall₂_cons.mp agrees.flags).1
      have stack' : ∀ newEntry, (p.setTop newEntry).ifStack = newEntry :: stack := by
        intro newEntry
        rw [Preprocessor.setTop, stackEq]
        rfl
      by_cases null : entry = .null
      · rw [if_pos null]
        have fresh := unused entry rfl sec rfl null
        exact (agrees.next (flags_next fresh)).updated ((ifStack_warnIf _ _).trans (stack' _))
      · rw [if_neg null]
        exact (agrees.next (flags_exhausted flag null (by decide))).updated
          ((ifStack_warnIf _ _).trans (stack' _))

theorem ifStack_setTop (stackEq : p.ifStack = entry :: stack) (newEntry : IfEntry) :
    (p.setTop newEntry).ifStack = newEntry :: stack := by
  rw [Preprocessor.setTop, stackEq]
  rfl

section

variable (agrees : Agrees p.ifStack p.isCompiledIn sections)

include agrees

/-- A section that is known to be done stays as it is. -/
theorem agrees_minusOne (stackEq : p.ifStack = .minusOne :: stack) :
    Agrees p.ifStack p.isCompiledIn (nextGroup value sections) := by
  rw [agrees.compiledIn, stackEq]
  rw [stackEq] at agrees
  obtain ⟨sec, sections, rfl⟩ := exists_section agrees
  have flag := (List.forall₂_cons.mp agrees.flags).1
  exact agrees.next (flags_exhausted flag (by decide) (by decide))

/-- A section is done when its selected group ends. -/
theorem agrees_flag (stackEq : p.ifStack = .flag :: stack) :
    Agrees (p.setTop .minusOne).updateState.ifStack (p.setTop .minusOne).updateState.isCompiledIn
      (nextGroup value sections) := by
  have top := ifStack_setTop stackEq .minusOne
  rw [stackEq] at agrees
  obtain ⟨sec, sections, rfl⟩ := exists_section agrees
  have flag := (List.forall₂_cons.mp agrees.flags).1
  exact (agrees.next (flags_exhausted flag (by decide) (by decide))).updated top

/-- The group of a section without a selected one is selected by its condition. -/
theorem agrees_null (stackEq : p.ifStack = .null :: stack)
    (unused : ∀ entry ∈ p.ifStack.head?, ∀ sec ∈ sections.head?, entry = .null → sec.open? = true)
    {tested : Preprocessor World} (top : tested.ifStack = Preprocessor.entryOf value :: stack) :
    Agrees tested.updateState.ifStack tested.updateState.isCompiledIn
      (nextGroup value sections) := by
  rw [stackEq] at agrees unused
  obtain ⟨sec, sections, rfl⟩ := exists_section agrees
  have further := unused .null rfl sec rfl rfl
  rw [Section.open?, Bool.and_eq_true, Bool.not_eq_true'] at further
  exact (agrees.next (flags_next fun _ => further.2)).updated top

theorem agrees_runElif
    (unused : ∀ entry ∈ p.ifStack.head?, ∀ sec ∈ sections.head?, entry = .null → sec.open? = true) :
    Agrees (p.runElif around rest).ifStack (p.runElif around rest).isCompiledIn
      (nextGroup (conditionValue around .elif rest p.world) sections) := by
  rw [Preprocessor.runElif]
  split
  · next empty =>
      have none := agrees_of_nil agrees empty
      subst none
      exact agrees
  · next stackEq => exact agrees_minusOne agrees stackEq
  · next stackEq => exact agrees_flag agrees stackEq
  · next stackEq => exact agrees_null agrees stackEq unused (ifStack_setTop stackEq _)

end

theorem agrees_elifMacroTest (supported : around.supportsElifdef = true)
    (agrees : Agrees p.ifStack p.isCompiledIn sections)
    (unused : ∀ entry ∈ p.ifStack.head?, ∀ sec ∈ sections.head?, entry = .null → sec.open? = true)
    (requireDefined : Bool) (directive : String) :
    let defined := around.macroNameIsDefined (around.readMacroName rest)
      (around.expectMacroName directive rest p.world)
    Agrees (p.elifMacroTest around requireDefined directive rest).ifStack
      (p.elifMacroTest around requireDefined directive rest).isCompiledIn
      (nextGroup (if requireDefined then defined else !defined) sections) := by
  rw [elifMacroTest, supported]
  simp only [Bool.not_true, Bool.false_eq_true, if_false]
  split
  · next empty =>
      have none := agrees_of_nil agrees empty
      subst none
      exact agrees
  · next stackEq => exact agrees_minusOne agrees stackEq
  · next stackEq => exact agrees_flag agrees stackEq
  · next stackEq =>
      exact agrees_null agrees stackEq unused
        ((ifStack_warnIf _ _).trans (ifStack_setTop stackEq _))

/-- An `#elif` tests its condition when the top of the stack is `NULL`. -/
theorem evaluated_runElif (stackEq : p.ifStack = .null :: stack) :
    (p.runElif around rest).evaluated = true := by
  rw [Preprocessor.runElif, stackEq]
  rfl

theorem evaluated_elifMacroTest (supported : around.supportsElifdef = true)
    (stackEq : p.ifStack = .null :: stack) (requireDefined : Bool) (directive : String) :
    (p.elifMacroTest around requireDefined directive rest).evaluated = true := by
  rw [elifMacroTest, supported, stackEq]
  show (updateState (Preprocessor.warnIf around _ _ _)).evaluated = true
  cases around.extraAfterName rest <;> rfl

/-- Otherwise it has no effect beside the stack. -/
theorem quiet_runElif (stackEq : p.ifStack = entry :: stack) (used : entry ≠ .null) :
    (p.runElif around rest).evaluated = p.evaluated ∧
      (p.runElif around rest).world = p.world := by
  rw [Preprocessor.runElif, stackEq]
  cases entry with
  | null => exact absurd rfl used
  | minusOne => exact ⟨rfl, rfl⟩
  | flag => exact ⟨rfl, rfl⟩

theorem quiet_elifMacroTest (supported : around.supportsElifdef = true)
    (stackEq : p.ifStack = entry :: stack) (used : entry ≠ .null)
    (requireDefined : Bool) (directive : String) :
    (p.elifMacroTest around requireDefined directive rest).evaluated = p.evaluated ∧
      (p.elifMacroTest around requireDefined directive rest).world = p.world := by
  rw [elifMacroTest, supported, stackEq]
  cases entry with
  | null => exact absurd rfl used
  | minusOne => exact ⟨rfl, rfl⟩
  | flag => exact ⟨rfl, rfl⟩

end Handlers

theorem takeWhile_eq_of_append {property : Char → Bool} {name rest : List Char}
    (all : ∀ ch ∈ name, property ch = true) (stops : ∀ ch ∈ rest.head?, property ch = false) :
    (name ++ rest).takeWhile property = name := by
  rw [List.takeWhile_append_of_pos all]
  cases rest with
  | nil => simp
  | cons ch rest =>
    rw [List.takeWhile_cons_of_neg (by simp [stops ch rfl]), List.append_nil]

theorem commandName_characters :
    preprocessorCommands.all (fun entry =>
      entry.1.toList.all fun ch => ch.isAlphanum || ch = '_') = true := by
  decide

theorem not_identifier_of_isSpace {ch : Char} (space : isSpace ch = true) :
    (ch.isAlphanum || ch = '_') = false := by
  simp only [isSpace, Bool.or_eq_true, Bool.and_eq_true, decide_eq_true_eq] at space
  rcases space with rfl | ⟨-, high⟩
  · decide
  · have high : ch.val.toNat ≤ 13 := high
    delta Char.isAlphanum Char.isAlpha Char.isUpper Char.isLower Char.isDigit
    simp only [Bool.or_eq_false_iff, decide_eq_false_iff_not, ge_iff_le, UInt32.le_iff_toNat_le,
      Bool.and_eq_false_iff]
    refine ⟨⟨⟨?_, ?_⟩, ?_⟩, ?_⟩
    · rintro ⟨upper, -⟩
      have upper : 65 ≤ ch.val.toNat := upper
      omega
    · left
      intro lower
      have lower : 97 ≤ ch.val.toNat := lower
      omega
    · left
      intro digit
      have digit : 48 ≤ ch.val.toNat := digit
      omega
    · rintro rfl
      exact absurd high (by decide)

theorem readsName_of_findCommand {line : List Char} {command : ConditionalCommand ⊕ OtherCommand}
    (found : findCommand (readCommandName line) = some command) : ReadsName (.directive line) := by
  obtain ⟨entry, entryFound, -⟩ := Option.map_eq_some_iff.mp found
  have member := List.mem_of_find?_eq_some entryFound
  have name : entry.1.toList = readCommandName line := by
    simpa using List.find?_some entryFound
  have characters := List.all_eq_true.mp (List.all_eq_true.mp commandName_characters entry member)
  rw [name] at characters
  cases line with
  | nil => rfl
  | cons first tail =>
    rw [readCommandName] at characters name
    split_ifs at characters name with letter
    · have split : first :: tail =
          (first :: tail).takeWhile (fun ch => !isSpace ch) ++
            (first :: tail).dropWhile (fun ch => !isSpace ch) :=
        List.takeWhile_append_dropWhile.symm
      rw [ReadsName, readCommandName, if_pos letter, directiveName]
      conv => lhs; rw [split]
      apply takeWhile_eq_of_append characters
      intro ch isHead
      apply not_identifier_of_isSpace
      have stops := List.head?_dropWhile_not (fun ch => !isSpace ch) (first :: tail)
      rw [isHead] at stops
      simpa using stops
    · have empty : ∀ entry ∈ preprocessorCommands, entry.1.toList ≠ [] := by decide
      exact absurd name (empty entry member)

theorem parseLine_of_reads (reads : ReadsName line) {command : ConditionalCommand}
    (conditional : conditionalOf line = some (command, rest)) :
    p.parseLine around line =
      ({ p with evaluated := false } : Preprocessor World).runConditional around command rest := by
  cases line with
  | text text => cases conditional
  | directive line =>
    simp only [conditionalOf] at conditional
    split at conditional
    · next found =>
        cases conditional
        rw [reads] at found ⊢
        simp only [parseLine, found]
    · cases conditional

/-- A line that is no conditional directive, or is not read as one, leaves the stack. -/
theorem parseLine_other (around : Surroundings World) (p : Preprocessor World)
    (other : conditionalOf line = none ∨ ¬ReadsName line) :
    (p.parseLine around line).ifStack = p.ifStack ∧
      (p.parseLine around line).isCompiledIn = p.isCompiledIn := by
  cases line with
  | text text => exact ⟨rfl, rfl⟩
  | directive line =>
    simp only [parseLine]
    split
    · split <;> exact ⟨rfl, rfl⟩
    · next found =>
        have reads := readsName_of_findCommand found
        have name : directiveName line = readCommandName line := reads
        rcases other with unconditional | misread
        · simp only [conditionalOf, name, found] at unconditional
          cases unconditional
        · exact absurd reads misread
    · exact ⟨rfl, rfl⟩

/-- A line that is misread does nothing while text is skipped. -/
theorem parseLine_misread (misread : ¬ReadsName line) (skipping : p.isCompiledIn = false) :
    (p.parseLine around line).evaluated = false ∧ (p.parseLine around line).world = p.world := by
  cases line with
  | text text => exact absurd trivial misread
  | directive line =>
    simp only [parseLine]
    split
    · rw [if_neg (by simp [skipping])]
      exact ⟨rfl, rfl⟩
    · next found => exact absurd (readsName_of_findCommand found) misread
    · next found => exact absurd (readsName_of_findCommand found) misread

/-! ## Lines -/

section Lines

variable (agrees : Agrees p.ifStack p.isCompiledIn sections)

include agrees in
/-- A section that text is skipped in as before may have had a further group. -/
theorem agrees_of_same (length : (follow around line p.world sections).length = sections.length)
    (same : active (follow around line p.world sections) = active sections) :
    Agrees p.ifStack p.isCompiledIn (follow around line p.world sections) := by
  have stays (value : Bool) (same : active (nextGroup value sections) = active sections) :
      Agrees p.ifStack p.isCompiledIn (nextGroup value sections) := by
    cases stackEq : p.ifStack with
    | nil =>
      have none := agrees_of_nil agrees stackEq
      subst none
      rw [← stackEq]
      exact agrees
    | cons entry stack =>
      rw [agrees.compiledIn, stackEq]
      rw [stackEq] at agrees
      obtain ⟨sec, sections, rfl⟩ := exists_section agrees
      apply agrees.next
      intro enclosed
      have enclosed : sec.enclosed = true := enclosed
      have around := agrees.nested.1.symm.trans enclosed
      obtain ⟨set, fresh⟩ := (List.forall₂_cons.mp agrees.flags).1 enclosed
      have current : (sec.next value).current = sec.current := by
        simpa only [nextGroup, active_cons, around, Bool.and_true] using same
      refine ⟨by rw [current]; exact set, ?_⟩
      intro unchosen
      apply fresh
      simp only [Section.next, Section.chosen, List.any_cons, Bool.or_eq_false_iff] at unchosen
      exact unchosen.2
  cases conditional : conditionalOf line with
  | none =>
    rw [follow, conditional]
    exact agrees
  | some directive =>
    obtain ⟨command, rest⟩ := directive
    simp only [follow, conditional] at length same ⊢
    cases command with
    | «if» | ifdef | ifndef => simp [openSection] at length
    | «elif» | «else» => exact stays _ same
    | elifdef | elifndef =>
      cases supported : around.supportsElifdef with
      | false => simpa only [supported, Bool.false_eq_true, if_false] using agrees
      | true =>
        simp only [supported, if_true] at same ⊢
        exact stays _ same
    | «endif» =>
      cases sections with
      | nil => exact agrees
      | cons sec sections => simp at length

include agrees in
theorem agrees_parseLine (meets : MeetsFlag around p sections line) :
    Agrees (p.parseLine around line).ifStack (p.parseLine around line).isCompiledIn
      (follow around line p.world sections) := by
  cases conditional : conditionalOf line with
  | none =>
    obtain ⟨stack, compiledIn⟩ := parseLine_other around p (.inl conditional)
    rw [stack, compiledIn, follow, conditional]
    exact agrees
  | some directive =>
    obtain ⟨command, rest⟩ := directive
    rcases meets with ⟨reads, flag⟩ | ⟨misread, length, same⟩
    · have start : Agrees ({ p with evaluated := false } : Preprocessor World).ifStack
          ({ p with evaluated := false } : Preprocessor World).isCompiledIn sections := agrees
      rw [parseLine_of_reads reads conditional, follow, conditional]
      have elif : isElif around line = true → ∀ entry ∈ p.ifStack.head?,
          ∀ sec ∈ sections.head?, entry = .null → sec.open? = true :=
        fun isElif entry top sec inner null => (flag entry top sec inner null).1 isElif
      cases command with
      | «if» => exact agrees_runIf start
      | ifdef => exact agrees_runIfdef start
      | ifndef => exact agrees_runIfndef start
      | «elif» => exact agrees_runElif start (elif (by rw [isElif, conditional]))
      | elifdef =>
        cases supported : around.supportsElifdef with
        | false =>
          have complains : ({ p with evaluated := false } : Preprocessor World).runElifdef
              around rest = Preprocessor.error around _ { p with evaluated := false } :=
            if_pos (by rw [supported]; rfl)
          simp only [runConditional, complains, Bool.false_eq_true, if_false]
          exact agrees
        | true =>
          simp only [if_true]
          exact agrees_elifMacroTest supported start
            (elif (by rw [isElif, conditional]; exact supported)) true "elifdef"
      | elifndef =>
        cases supported : around.supportsElifdef with
        | false =>
          have complains : ({ p with evaluated := false } : Preprocessor World).runElifndef
              around rest = Preprocessor.error around _ { p with evaluated := false } :=
            if_pos (by rw [supported]; rfl)
          simp only [runConditional, complains, Bool.false_eq_true, if_false]
          exact agrees
        | true =>
          simp only [if_true]
          exact agrees_elifMacroTest supported start
            (elif (by rw [isElif, conditional]; exact supported)) false "elifndef"
      | «else» =>
        apply agrees_runElse start
        intro entry top sec inner null
        exact (flag entry top sec inner null).2 rest conditional
      | «endif» => exact agrees_runEndif start
    · obtain ⟨stack, compiledIn⟩ := parseLine_other around p (.inr misread)
      rw [stack, compiledIn]
      exact agrees_of_same agrees length same

omit agrees in
/-- An `#elif` that is read as one and finds `NULL` on the stack tests its condition. -/
theorem evaluated_parseLine (reads : ReadsName line) (elif : isElif around line = true)
    (stackEq : p.ifStack = .null :: stack) : (p.parseLine around line).evaluated = true := by
  have start : ({ p with evaluated := false } : Preprocessor World).ifStack = .null :: stack :=
    stackEq
  cases conditional : conditionalOf line with
  | none => simp [isElif, conditional] at elif
  | some directive =>
    obtain ⟨command, rest⟩ := directive
    rw [parseLine_of_reads reads conditional]
    simp only [isElif, conditional] at elif
    cases command with
    | «elif» => exact evaluated_runElif start
    | elifdef => exact evaluated_elifMacroTest elif start true "elifdef"
    | elifndef => exact evaluated_elifMacroTest elif start false "elifndef"
    | «if» | ifdef | ifndef | «else» | «endif» => cases elif

/-- One that finds another entry does nothing but change the stack. -/
theorem quiet_parseLine (reads : ReadsName line) (elif : isElif around line = true)
    (stackEq : p.ifStack = entry :: stack) (used : entry ≠ .null) :
    (p.parseLine around line).evaluated = false ∧ (p.parseLine around line).world = p.world := by
  have start : ({ p with evaluated := false } : Preprocessor World).ifStack = entry :: stack :=
    stackEq
  cases conditional : conditionalOf line with
  | none => simp [isElif, conditional] at elif
  | some directive =>
    obtain ⟨command, rest⟩ := directive
    rw [parseLine_of_reads reads conditional]
    simp only [isElif, conditional] at elif
    cases command with
    | «elif» => exact quiet_runElif start used
    | elifdef => exact quiet_elifMacroTest elif start used true "elifdef"
    | elifndef => exact quiet_elifMacroTest elif start used false "elifndef"
    | «if» | ifdef | ifndef | «else» | «endif» => cases elif

/-- An `#else` that finds `NULL` on the stack compiles in what the sections around are
compiled in. -/
theorem isCompiledIn_runElse (stackEq : p.ifStack = .null :: stack) :
    (p.runElse around rest).isCompiledIn = allFlags stack := by
  have runs : p.runElse around rest = ((p.setTop .flag).warnIf around
      (around.extraAfterCommand rest) "Extra tokens after #else").updateState := by
    rw [Preprocessor.runElse, stackEq]
    rfl
  rw [runs, isCompiledIn_updateState]
  have top : ((p.setTop .flag).warnIf around (around.extraAfterCommand rest)
      "Extra tokens after #else").updateState.ifStack = .flag :: stack :=
    (ifStack_warnIf _ _).trans (ifStack_setTop stackEq .flag)
  rw [top, allFlags_cons, decide_eq_true rfl, Bool.true_and]

include agrees in
/-- An `#else` that skips as the language does ends a section without a selected group
if it finds `NULL` on the stack. -/
theorem not_chosen_of_else (reads : ReadsName line)
    (conditional : conditionalOf line = some (.else, rest))
    (skipping : (p.parseLine around line).isCompiledIn = active (follow around line p.world
      sections)) (stackEq : p.ifStack = .null :: stack) (inner : sections.head? = some sec)
    (enclosed : sec.enclosed = true) : sec.chosen = false := by
  cases sections with
  | nil => cases inner
  | cons head others =>
    cases inner
    rw [stackEq] at agrees
    have enclosing := agrees.nested.1.symm.trans enclosed
    have flags := allFlags_eq_active (List.forall₂_cons.mp agrees.flags).2 agrees.nested.2
    rw [parseLine_of_reads reads conditional] at skipping
    have start : ({ p with evaluated := false } : Preprocessor World).ifStack =
        .null :: stack := stackEq
    rw [runConditional, isCompiledIn_runElse start, flags, enclosing, follow,
      conditional] at skipping
    cases chosen : sec.chosen with
    | false => rfl
    | true =>
      simp [nextGroup, active_cons, Section.next, Section.current, Section.open?, chosen]
        at skipping

include agrees in
/-- An `#elif` that is not read as one skips as the language does, when its group cannot
be selected, if text is skipped already. -/
theorem skipping_of_same (elif : isElif around line = true) (inner : sections.head? = some sec)
    (closed : sec.open? = false)
    (same : active (follow around line p.world sections) = active sections) :
    p.isCompiledIn = false := by
  rw [agrees.compiledIn_eq, ← same]
  cases sections with
  | nil => cases inner
  | cons head others =>
    cases inner
    have next (value : Bool) : active (nextGroup value (sec :: others)) = false := by
      simp [nextGroup, active_cons, Section.next, Section.current, closed]
    cases conditional : conditionalOf line with
    | none => simp [isElif, conditional] at elif
    | some directive =>
      obtain ⟨command, rest⟩ := directive
      simp only [isElif, conditional] at elif
      simp only [follow, conditional]
      cases command with
      | «elif» => exact next _
      | elifdef | elifndef =>
        have supported : around.supportsElifdef = true := elif
        simp only [supported, if_true]
        exact next _
      | «if» | ifdef | ifndef | «else» | «endif» => cases elif

include agrees in
/-- A line follows the language exactly when it meets a flag it can rely on. -/
theorem followsLanguage_iff :
    FollowsLanguage around p sections line ↔ MeetsFlag around p sections line := by
  constructor
  · intro follows
    by_cases reads : ReadsName line
    · refine .inl ⟨reads, ?_⟩
      intro entry top sec inner null
      obtain ⟨stack, stackEq⟩ := List.head?_eq_some_iff.mp top
      rw [null] at stackEq
      constructor
      · intro elif
        cases further : sec.open? with
        | true => rfl
        | false =>
          have quiet := (follows.elif elif sec inner further).1
          rw [evaluated_parseLine reads elif stackEq] at quiet
          cases quiet
      · intro rest conditional
        exact not_chosen_of_else agrees reads conditional follows.skipping stackEq inner
    · refine .inr ⟨reads, ?_, ?_⟩
      · rw [← follows.depth, (parseLine_other around p (.inr reads)).1]
        exact agrees.length
      · rw [← follows.skipping, (parseLine_other around p (.inr reads)).2]
        exact agrees.compiledIn_eq
  · intro meets
    have after := agrees_parseLine agrees meets
    refine ⟨after.compiledIn_eq, after.length, after.once, ?_⟩
    intro elif sec inner closed
    rcases meets with ⟨reads, flag⟩ | ⟨misread, -, same⟩
    · cases stackEq : p.ifStack with
      | nil =>
        have none := agrees_of_nil agrees stackEq
        subst none
        cases inner
      | cons entry stack =>
        apply quiet_parseLine reads elif stackEq
        intro null
        have further := (flag entry (by rw [stackEq]; rfl) sec inner null).1 elif
        rw [closed] at further
        cases further
    · exact parseLine_misread misread (skipping_of_same agrees elif inner closed same)

end Lines

theorem agrees_nil : Agrees [] true [] where
  flags := .nil
  compiledIn := rfl
  nested := trivial
  once := by simp

theorem atEveryLine_iff {lines : List SourceLine}
    (agrees : Agrees p.ifStack p.isCompiledIn sections) :
    AtEveryLine around (FollowsLanguage around) lines p sections ↔
      AtEveryLine around (MeetsFlag around) lines p sections := by
  induction lines generalizing p sections with
  | nil => exact Iff.rfl
  | cons line lines ih =>
    rw [AtEveryLine, AtEveryLine, followsLanguage_iff agrees]
    apply and_congr_right
    intro meets
    exact ih (agrees_parseLine agrees meets)

/-- In every run from the start, every line follows the language exactly when every line
meets a flag it can rely on. -/
theorem conditional_compilation_iff {World : Type} (around : Surroundings World)
    (lines : List SourceLine) (world : World) :
    AtEveryLine around (FollowsLanguage around) lines { world := world } [] ↔
      AtEveryLine around (MeetsFlag around) lines { world := world } [] :=
  atEveryLine_iff agrees_nil

/-- Surroundings in which conditions hold that start with a space and a `1`. -/
def constantConditions : Surroundings Unit where
  evaluateExpression := fun rest world => (rest.take 2 == " 1".toList, world)
  readMacroName := fun _ => "NAME"
  macroNameIsDefined := fun _ _ => false
  extraAfterName := fun _ => false
  extraAfterCommand := fun _ => false
  preprocessorError := fun _ world => world
  preprocessorWarning := fun _ world => world
  supportsElifdef := true
  runOther := fun _ _ _ world => world
  readText := fun _ _ world => world

/-- A second `#else` selects a second group. -/
theorem not_follows_second_else :
    ¬∀ (World : Type) (around : Surroundings World) (lines : List SourceLine) (world : World),
      AtEveryLine around (FollowsLanguage around) lines { world := world } [] := by
  intro always
  have follows := always Unit constantConditions
    [.directive "if 1".toList, .directive "else".toList, .directive "else".toList] ()
  have skips := follows.2.2.1.skipping
  exact absurd skips (by decide)

end DaveCC.Frontend
